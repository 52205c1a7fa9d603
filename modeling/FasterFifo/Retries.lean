import FasterFifo.GiveUp
import FasterFifo.PythonContracts
import Mathlib.Data.List.Chain
import Mathlib.Data.Nat.Log
import Mathlib.Tactic.Linarith

/-! A retry of `get_many` can fail again, in front of a larger message. But the sizes reported
exceed the buffer and never the capacity, so the buffers of one call grow geometrically. -/
namespace FasterFifo
open CheckedMemory CyclicBuffer Framing Transition Monitor
open BoundedFifo (Store total total_append total_cons total_nil)

section Growth

/-- From the buffer of a failed attempt to the buffer of its retry. -/
def Grows (M b b' : ℕ) : Prop := b < M ∧ b < b' ∧ 3 * b ≤ 2 * b'

/-- The largest buffer that `get_many` makes for itself. -/
def recvBound (M : ℕ) : ℕ := max initialRecvBufferSize (grownSize M)

theorem length_reallocateMsgBuffer (n : ℕ) :
    (reallocateMsgBuffer n).length = max initialRecvBufferSize n := List.length_replicate

theorem grows_of_reported {M b n : ℕ} (hsmall : b < n) (hn : n ≤ M) :
    Grows M b (reallocateMsgBuffer (grownSize n)).length ∧
      (reallocateMsgBuffer (grownSize n)).length ≤ recvBound M := by
  have hle : grownSize n ≤ (reallocateMsgBuffer (grownSize n)).length := by
    rw [length_reallocateMsgBuffer]
    exact le_max_right _ _
  have hhalf : 3 * n ≤ 2 * grownSize n + 1 := by
    rw [grownSize]
    omega
  have hmono : grownSize n ≤ grownSize M := by
    rw [grownSize, grownSize]
    omega
  refine ⟨⟨by omega, by omega, by omega⟩, ?_⟩
  rw [length_reallocateMsgBuffer]
  exact max_le_max le_rfl hmono

theorem geometric_chain {p q b₀ r b : ℕ} {sizes : List ℕ}
    (h : (b₀ :: sizes).IsChain fun x y => p * x ≤ q * y) (hb : (b₀ :: sizes)[r]? = some b) :
    b₀ * p ^ r ≤ q ^ r * b := by
  induction r generalizing b₀ sizes with
  | zero =>
      cases hb
      simp
  | succ r ih =>
      cases sizes with
      | nil => simp at hb
      | cons b₁ sizes =>
          obtain ⟨hstep, hrest⟩ := List.isChain_cons.mp h
          have hfirst := hstep b₁ rfl
          have hlater := ih hrest hb
          calc b₀ * p ^ (r + 1) = p * b₀ * p ^ r := by ring
            _ ≤ q * b₁ * p ^ r := Nat.mul_le_mul_right _ hfirst
            _ = q * (b₁ * p ^ r) := by ring
            _ ≤ q * (q ^ r * b) := Nat.mul_le_mul_left q hlater
            _ = q ^ (r + 1) * b := by ring

/-- The buffers of the attempts of one call, in order; the last attempt had `b` bytes. -/
structure Attempted (M : ℕ) (sizes : List ℕ) (b : ℕ) : Prop where
  first : ∀ b₀ ∈ sizes.head?, initialRecvBufferSize ≤ b₀
  chain : sizes.IsChain (Grows M)
  last : sizes.getLast? = some b

theorem Attempted.single {M b : ℕ} (hb : initialRecvBufferSize ≤ b) : Attempted M [b] b where
  first := by
    rintro b₀ ⟨⟩
    exact hb
  chain := .singleton b
  last := rfl

theorem Attempted.retry {M b b' : ℕ} {sizes : List ℕ} (h : Attempted M sizes b)
    (hgrows : Grows M b b') : Attempted M (sizes ++ [b']) b' where
  first := by
    intro b₀ hb₀
    cases sizes with
    | nil => exact absurd h.last (by simp)
    | cons b₁ sizes => exact h.first b₀ hb₀
  chain := by
    refine h.chain.append (.singleton b') ?_
    intro x hx y hy
    rw [h.last] at hx
    cases hx
    cases hy
    exact hgrows
  last := by simp

/-- The r-th retry needs a queue of more than 5000 * 1.5^(r-1) bytes. -/
theorem Attempted.retry_lt {M b r : ℕ} {sizes : List ℕ} (h : Attempted M sizes b) (hr : 1 ≤ r)
    (hlen : r < sizes.length) : (5000 : ℚ) * (3 / 2) ^ (r - 1) < M := by
  obtain ⟨k, rfl⟩ := Nat.exists_eq_add_of_le' hr
  rw [Nat.add_sub_cancel]
  obtain ⟨x, hx, hbelow⟩ : ∃ x, sizes[k]? = some x ∧ x < M :=
    ⟨sizes[k], List.getElem?_eq_getElem (by omega),
      (List.isChain_iff_getElem.mp h.chain k (by omega)).1⟩
  have hgeometric : 5000 * 3 ^ k ≤ 2 ^ k * x := by
    have hchain := h.chain.imp fun _ _ (hxy : Grows M _ _) => hxy.2.2
    have hfirst := h.first
    cases sizes with
    | nil => exact absurd hlen (Nat.not_lt_zero _)
    | cons b₀ rest =>
        have hbase : 5000 * 3 ^ k ≤ b₀ * 3 ^ k := Nat.mul_le_mul_right _ (hfirst b₀ rfl)
        exact hbase.trans (geometric_chain hchain hx)
  have hrational : (5000 : ℚ) * 3 ^ k ≤ 2 ^ k * x := by exact_mod_cast hgeometric
  have hcast : (x : ℚ) < M := by exact_mod_cast hbelow
  have hpow : (0 : ℚ) < 2 ^ k := by positivity
  rw [div_pow, mul_div_assoc', div_lt_iff₀ hpow]
  calc (5000 : ℚ) * 3 ^ k ≤ 2 ^ k * x := hrational
    _ < 2 ^ k * M := mul_lt_mul_of_pos_left hcast hpow
    _ = M * 2 ^ k := mul_comm _ _

/-- The number of attempts is logarithmic in the capacity. -/
theorem Attempted.length_le {M b : ℕ} {sizes : List ℕ} (h : Attempted M sizes b) :
    sizes.length ≤ 2 * Nat.log 2 M + 3 := by
  by_contra hlong
  have hlen : 2 * (Nat.log 2 M + 1) + 1 < sizes.length := by omega
  have hsmall := h.retry_lt (Nat.le_add_left 1 _) hlen
  rw [Nat.add_sub_cancel, pow_mul] at hsmall
  have hlog : (M : ℚ) < 2 ^ (Nat.log 2 M + 1) := by
    exact_mod_cast Nat.lt_pow_succ_log_self (by decide) M
  have hpow : (2 : ℚ) ^ (Nat.log 2 M + 1) ≤ ((3 / 2) ^ 2) ^ (Nat.log 2 M + 1) :=
    pow_le_pow_left₀ (by decide) (by norm_num) _
  have hpos : (0 : ℚ) < ((3 / 2) ^ 2) ^ (Nat.log 2 M + 1) := by positivity
  linarith

end Growth

section Sections
variable {M N : ℕ} {s : Shared} {f : MessageStore M N} {a : GetArgs} {waitRemaining now : Timeval}
  {o : Section} {r : GetResult}

/-- What `queue_get` reports when the receive buffer is too small: a size beyond the buffer that
the queue really holds, and that of the first message if none was read. -/
structure Reports (f : MessageStore M N) (a : GetArgs) (r : GetResult) : Prop where
  buffer : r.msgBuffer.length = a.msgBufferSize
  small : r.status = .msgBufferTooSmall → a.msgBufferSize < r.messagesSize ∧ r.messagesSize ≤ M
  first : r.status = .msgBufferTooSmall → r.messagesRead = 0 →
    1 ≤ a.maxMessagesToGet ∧ 1 ≤ a.maxBytesToGet ∧
      ∃ m ms, f.items = m :: ms ∧ r.messagesSize = msgWeight m

theorem get_reports (h : Represents s f) (hsection : GetSection s a waitRemaining now o)
    (hx : o.exit = .returned (.get r)) : Reports f a r := by
  cases hsection with
  | empty hsize hstop =>
      cases hx
      exact ⟨rfl, nofun, nofun⟩
  | wait hsize hblock htimer => cases hx
  | read hsize hloop =>
      cases hx
      obtain ⟨hne, rfl, -⟩ := read_spec h hsize hloop
      have hrefuses : ((a.start s).served a f.items).result.status = .msgBufferTooSmall →
          a.refuses (a.start s) f.items := by
        intro hsmall
        by_contra hr
        rw [served_result, if_neg hr] at hsmall
        cases hsmall
      constructor
      · have hle := served_total_le a s f.items
        simp only [served_result, List.length_append, length_frames_eq, List.length_drop]
        exact Nat.add_sub_cancel' hle
      · intro hsmall
        have hr := hrefuses hsmall
        rw [served_result]
        simp only [if_pos hr]
        exact ⟨((refuses_iff a s f.items).mp hr).2.2.2,
          (BoundedFifo.total_take_le msgWeight _ _).trans f.weight_le⟩
      · intro hsmall hread
        have hr := hrefuses hsmall
        rw [served_result] at hread
        have hk : a.serves (a.start s) f.items = 0 := hread
        obtain ⟨hK, hX, -⟩ := (refuses_iff a s f.items).mp hr
        rw [hk] at hK hX
        refine ⟨hK, hX, ?_⟩
        cases hitems : f.items with
        | nil => exact absurd hitems hne
        | cons m ms =>
            rw [hitems] at hk
            exact ⟨m, ms, rfl, refused_size s hk hK hX⟩

theorem get_unread (h : Represents s f) (hsection : GetSection s a waitRemaining now o)
    (hx : o.exit = .returned (.get r)) (hread : r.messagesRead = 0) : o.shared = s := by
  cases hsection with
  | empty hsize hstop => rfl
  | wait hsize hblock htimer => cases hx
  | read hsize hloop =>
      cases hx
      obtain ⟨hne, rfl, -⟩ := read_spec h hsize hloop
      rw [served_result] at hread
      exact served_none h hne hread

end Sections

variable {T α : Type} {S : Serializer α}

theorem finishGet_recv (S : Serializer α) (caller current : GetManyArgs) (r : GetResult) :
    (finishGet S caller current r).recv = some r.msgBuffer ∨
      r.status = .msgBufferTooSmall ∧ (finishGet S caller current r).recv =
        some (reallocateMsgBuffer (grownSize r.messagesSize)) := by
  unfold finishGet
  split
  · rename_i hsmall
    exact .inr ⟨hsmall.1, rfl⟩
  · split
    · dsimp only
      split
      · exact .inl rfl
      · split
        · exact .inl rfl
        · split
          · rename_i hsmall
            exact .inr ⟨hsmall, rfl⟩
          · exact .inl rfl
    · split <;> exact .inl rfl

theorem finishGet_retries {caller current caller' last : GetManyArgs} {r : GetResult}
    (h : (finishGet S caller current r).activity = .retrying caller' last) :
    r.status = .msgBufferTooSmall ∧ r.messagesRead = 0 ∧
      (finishGet S caller current r).recv =
        some (reallocateMsgBuffer (grownSize r.messagesSize)) := by
  by_cases hsmall : r.status = .msgBufferTooSmall ∧ r.messagesRead ≤ 0
  · exact ⟨hsmall.1, Nat.le_zero.mp hsmall.2, by rw [finishGet, if_pos hsmall]⟩
  · rw [finishGet, if_neg hsmall] at h
    split at h
    · dsimp only at h
      split at h
      · cases h
      · split at h
        · cases h
        · split at h <;> cases h
    · split at h <;> cases h

section Buffers

/-- The receive buffer that the thread holds, in bytes. -/
def PySystem.recvSize (p : PySystem T α) (t : T) : ℕ :=
  match p.recv t with
  | none => 0
  | some msgBuffer => msgBuffer.length

theorem getEnd_recv {M N : ℕ} {s : Shared} {f : MessageStore M N} (h : Represents s f)
    {a : GetArgs} {waitRemaining now : Timeval} {o : Section} {caller current : GetManyArgs}
    {e : PyEnd α} (hsection : GetSection s a waitRemaining now o)
    (hend : getEnd S caller current (some a.msgBuffer) o.exit = some e) :
    ∃ msgBuffer, e.recv = some msgBuffer ∧ a.msgBufferSize ≤ msgBuffer.length ∧
      (a.msgBufferSize ≤ recvBound M → msgBuffer.length ≤ recvBound M) ∧
      ∀ caller' last, e.activity = .retrying caller' last →
        Grows M a.msgBufferSize msgBuffer.length := by
  unfold getEnd at hend
  split at hend
  · cases hend
    exact ⟨a.msgBuffer, rfl, le_rfl, id, nofun⟩
  · rename_i r hx
    cases hend
    have hreports := get_reports h hsection hx
    rcases finishGet_recv S caller current r with hkept | ⟨hsmall, hnew⟩
    · refine ⟨r.msgBuffer, hkept, hreports.buffer.ge, hreports.buffer.le.trans, ?_⟩
      intro caller' last hactivity
      obtain ⟨hsmall, -, hrecv⟩ := finishGet_retries hactivity
      obtain ⟨hlt, hle⟩ := hreports.small hsmall
      rw [hkept] at hrecv
      rw [Option.some.inj hrecv]
      exact (grows_of_reported hlt hle).1
    · obtain ⟨hlt, hle⟩ := hreports.small hsmall
      obtain ⟨hgrows, hbound⟩ := grows_of_reported hlt hle
      exact ⟨_, hnew, hgrows.2.1.le, fun _ => hbound, fun _ _ _ => hgrows⟩
  · cases hend

end Buffers

section Attempts
variable [DecidableEq T] {X M N : ℕ}

/-- The receive buffer of an attempt of thread `t`: a call of `queue_get`, not a wakeup in one. -/
def PyEvent.attempt (t : T) : PyEvent T α → Option ℕ
  | .get u _ _ (.crit _ (.enter (.get a)) _ _ _) _ => if u = t then some a.msgBufferSize else none
  | _ => none

/-- The receive buffers of the attempts of the `get_many` that `t` is in, or has just left. -/
def attempts (t : T) (moves : List (Move (PySystem T α) (PyEvent T α))) : List ℕ :=
  moves.foldl (fun sizes m =>
    match m.label.attempt t, m.pre.activity t with
    | none, _ => sizes
    | some size, .retrying _ _ => sizes ++ [size]
    | some size, _ => [size]) []

variable {p q : PySystem T α} {moves : List (Move (PySystem T α) (PyEvent T α))} {t u : T}
  {label : PyEvent T α}

theorem attempt_enter {caller current args : GetManyArgs} {msgBuffer : Bytes} {clock : Clock}
    {o : Section} {pick : Option T} {outcome : PyOutcome α} :
    (PyEvent.get t caller current (.crit t (.enter (args.call X msgBuffer)) clock o pick)
      outcome).attempt t = some msgBuffer.length := if_pos rfl

theorem attempt_other {caller current : GetManyArgs} {event : Event T} {outcome : PyOutcome α}
    (h : u ≠ t) : (PyEvent.get t caller current event outcome).attempt u = none := by
  simp only [PyEvent.attempt]
  split
  · rename_i he
    cases he
    exact if_neg h.symm
  · rfl

theorem attempts_none (h : label.attempt t = none) :
    attempts t (moves ++ [⟨p, label, q⟩]) = attempts t moves := by
  simp [attempts, h]

theorem attempts_retry {size : ℕ} {caller last : GetManyArgs} (h : label.attempt t = some size)
    (hactivity : p.activity t = .retrying caller last) :
    attempts t (moves ++ [⟨p, label, q⟩]) = attempts t moves ++ [size] := by
  simp [attempts, h, hactivity]

theorem attempts_first {size : ℕ} (h : label.attempt t = some size)
    (hactivity : p.activity t = .idle) : attempts t (moves ++ [⟨p, label, q⟩]) = [size] := by
  simp [attempts, h, hactivity]

/-- The receive buffer of a thread and the attempts it has made, between two sections. -/
structure Retrying (M : ℕ) (sizes : List ℕ) (p : PySystem T α) (t : T) : Prop where
  attempted : sizes = [] ∨ ∃ b, Attempted M sizes b
  recv : ∀ msgBuffer, p.recv t = some msgBuffer → initialRecvBufferSize ≤ msgBuffer.length
  pending : ∀ r a, p.world.Pending t r → r.call = .get a →
    p.recv t = some a.msgBuffer ∧ Attempted M sizes a.msgBufferSize
  retrying : ∀ caller last, p.activity t = .retrying caller last →
    ∃ b, Attempted M sizes b ∧ Grows M b (p.recvSize t)

/-- A section of `get_many` with the receive buffer it was given. -/
inductive GetTurn (S : Serializer α) (X : ℕ) (p : PySystem T α) (t : T)
    (caller current : GetManyArgs) (a : GetArgs) : Event T → PyOutcome α → PySystem T α → Prop
  | intro {start : Start Call Request} {clock : Clock} {o : Section}
      {pick : Option T} {w : System T} {e : PyEnd α} (hcall : startCall start = .get a)
      (hlimits : a.maxMessagesToGet = current.maxMessagesToGet ∧ a.maxBytesToGet = X)
      (hbuffer : a.msgBuffer = recvBuffer (p.recv t))
      (hstep : Step program p.world (.crit t start clock o pick) w)
      (hend : getEnd S caller current (some a.msgBuffer) o.exit = some e) :
      GetTurn S X p t caller current a (.crit t start clock o pick) e.outcome (p.after t w e)

omit [DecidableEq T] in
theorem recvSize_le (p : PySystem T α) (t : T) : p.recvSize t ≤ (recvBuffer (p.recv t)).length := by
  unfold PySystem.recvSize
  cases p.recv t with
  | none => exact Nat.zero_le _
  | some msgBuffer => exact le_rfl

omit [DecidableEq T] in
theorem recvSize_eq (h : 0 < p.recvSize t) : (recvBuffer (p.recv t)).length = p.recvSize t := by
  unfold PySystem.recvSize at *
  cases hrecv : p.recv t with
  | none => simp [hrecv] at h
  | some msgBuffer => rfl

omit [DecidableEq T] in
theorem Retrying.initial_le {sizes : List ℕ} (h : Retrying M sizes p t) :
    initialRecvBufferSize ≤ (recvBuffer (p.recv t)).length := by
  cases hrecv : p.recv t with
  | none => rw [recvBuffer, length_reallocateMsgBuffer, max_self]
  | some msgBuffer => exact h.recv msgBuffer hrecv

/-- Every section of `get_many` belongs to an attempt, the last one on record. -/
theorem Retrying.get_turn (h : Retrying M (attempts t moves) p t) (hc : Consistent S X p)
    {caller current : GetManyArgs} {event : Event T} {outcome : PyOutcome α}
    (hstep : PyStep S X p (.get t caller current event outcome) q) :
    ∃ a, GetTurn S X p t caller current a event outcome q ∧
      Attempted M (attempts t (moves ++ [⟨p, .get t caller current event outcome, q⟩]))
        a.msgBufferSize := by
  cases hstep with
  | getEnter hidle hstep hend =>
      refine ⟨_, .intro rfl ⟨rfl, rfl⟩ rfl hstep hend, ?_⟩
      rw [attempts_first attempt_enter hidle]
      exact .single h.initial_le
  | getRetry hretrying hargs hstep hend =>
      subst hargs
      refine ⟨_, .intro rfl ⟨rfl, rfl⟩ rfl hstep hend, ?_⟩
      obtain ⟨b, hattempted, hgrows⟩ := h.retrying _ _ hretrying
      rw [← recvSize_eq (Nat.zero_lt_of_lt hgrows.2.1)] at hgrows
      rw [attempts_retry attempt_enter hretrying]
      exact hattempted.retry hgrows
  | getResume hgetting hstep hend =>
      have hruns := hc.pending t _ (.inr hstep.crit_inv.1)
      rw [hgetting] at hruns
      obtain ⟨-, msgBuffer, hcall⟩ := hruns
      obtain ⟨hrecv, hattempted⟩ := h.pending _ _ (.inr hstep.crit_inv.1) hcall
      rw [hrecv] at hend
      refine ⟨_, .intro hcall ⟨rfl, rfl⟩ (by rw [hrecv]; rfl) hstep hend, ?_⟩
      rw [attempts_none rfl]
      exact hattempted

section Step
variable {start : Start Call Request} {clock : Clock} {o : Section} {pick : Option T}
  {w : System T} {e : PyEnd α}

theorem after_recv_of_ne (h : u ≠ t) : (p.after t w e).recv u = p.recv u :=
  Function.update_of_ne h _ _

theorem after_recv_self : (p.after t w e).recv t = e.recv := Function.update_self _ _ _

theorem Retrying.other {sizes : List ℕ} (h : Retrying M sizes p u) (hne : u ≠ t)
    (hstep : Step program p.world (.crit t start clock o pick) w) :
    Retrying M sizes (p.after t w e) u where
  attempted := h.attempted
  recv := by
    rw [after_recv_of_ne hne]
    exact h.recv
  pending := by
    intro r a hr
    rw [after_recv_of_ne hne]
    rcases hstep.pending hr with ⟨-, hold⟩ | ⟨hu, -⟩
    · exact h.pending r a hold
    · exact absurd hu hne
  retrying := by
    rw [after_activity_of_ne hne, PySystem.recvSize, after_recv_of_ne hne]
    exact h.retrying

omit [DecidableEq T] in
theorem putEnd_recv {args : PutManyArgs α} {recv : Option Bytes} {x : Exit Request Result}
    (h : putEnd args recv x = some e) :
    e.recv = recv ∧ ∀ caller last, e.activity ≠ .retrying caller last := by
  unfold putEnd at h
  split at h <;> cases h <;> exact ⟨rfl, nofun⟩

theorem Retrying.put {sizes : List ℕ} {a : PutArgs} {args : PutManyArgs α}
    (h : Retrying M sizes p t) (hcall : startCall start = .put a)
    (hstep : Step program p.world (.crit t start clock o pick) w)
    (hend : putEnd args (p.recv t) o.exit = some e) : Retrying M sizes (p.after t w e) t := by
  have hkept := putEnd_recv hend
  constructor
  · exact h.attempted
  · rw [after_recv_self, hkept.1]
    exact h.recv
  · intro r a' hr hget
    rcases hstep.pending hr with ⟨hne, -⟩ | ⟨-, hnew⟩
    · exact absurd rfl hne
    · rw [waiting_call hstep.crit_inv.2.1 hnew, hcall] at hget
      cases hget
  · intro caller last hactivity
    rw [after_activity_self] at hactivity
    exact absurd hactivity (hkept.2 caller last)

theorem GetTurn.retrying {sizes : List ℕ} {caller current : GetManyArgs} {a : GetArgs}
    {event : Event T} {outcome : PyOutcome α} {f : MessageStore M N}
    (h : GetTurn S X p t caller current a event outcome q) (hf : Represents p.world.shared f)
    (hinitial : initialRecvBufferSize ≤ (recvBuffer (p.recv t)).length)
    (hattempted : Attempted M sizes a.msgBufferSize) : Retrying M sizes q t := by
  cases h with
  | @intro start clock o pick w e hcall hlimits hbuffer hstep hend =>
      rw [← hbuffer] at hinitial
      have hbody := hstep.crit_inv.2.1
      have hsection := hbody
      rw [body_eq, hcall] at hsection
      obtain ⟨msgBuffer, hrecv, hle, -, hretries⟩ :=
        getEnd_recv (hf.startShared start) (queueGetWait_cases hsection) hend
      constructor
      · exact .inr ⟨_, hattempted⟩
      · intro msgBuffer' hrecv'
        rw [after_recv_self, hrecv] at hrecv'
        cases hrecv'
        exact hinitial.trans hle
      · intro r a' hr hget
        rcases hstep.pending hr with ⟨hne, -⟩ | ⟨-, hnew⟩
        · exact absurd rfl hne
        · rw [waiting_call hbody hnew, hcall] at hget
          cases hget
          rw [hnew] at hend
          cases hend
          rw [after_recv_self]
          exact ⟨rfl, hattempted⟩
      · intro caller' last hactivity
        rw [after_activity_self] at hactivity
        rw [PySystem.recvSize, after_recv_self, hrecv]
        exact ⟨_, hattempted, hretries caller' last hactivity⟩

theorem Retrying.step {f : MessageStore M N} (h : ∀ u, Retrying M (attempts u moves) p u)
    (hc : Consistent S X p) (hf : Represents p.world.shared f) (hstep : PyStep S X p label q)
    (u : T) : Retrying M (attempts u (moves ++ [⟨p, label, q⟩])) q u := by
  cases label with
  | putRaise t args e =>
      cases hstep
      rw [attempts_none rfl]
      exact ⟨(h u).attempted, (h u).recv, (h u).pending, (h u).retrying⟩
  | wake t =>
      cases hstep with
      | wake hstep =>
          rw [attempts_none rfl]
          exact ⟨(h u).attempted, (h u).recv,
            fun r a hr => (h u).pending r a (hstep.wake_pending hr), (h u).retrying⟩
  | put t args event outcome =>
      rw [attempts_none rfl]
      cases hc.turn hstep with
      | @put _ _ msgs start clock o pick w e hprepare hcall hsection hend =>
          have hput : startCall start = .put ⟨msgs, args.block, args.timeout⟩ := hcall
          by_cases hut : u = t
          · subst hut
            exact (h u).put hput hsection hend
          · exact (h u).other hut hsection
  | get t caller current event outcome =>
      obtain ⟨a, hturn, hattempted⟩ := (h t).get_turn hc hstep
      by_cases hut : u = t
      · subst hut
        exact hturn.retrying hf (h u).initial_le hattempted
      · cases hturn with
        | intro hcall hlimits hbuffer hsection hend =>
            rw [attempts_none (attempt_other hut)]
            exact (h u).other hut hsection

omit [DecidableEq T] in
theorem recvBuffer_le_bound (h : p.recvSize t ≤ recvBound M) :
    (recvBuffer (p.recv t)).length ≤ recvBound M := by
  unfold PySystem.recvSize at h
  cases hrecv : p.recv t with
  | none =>
      rw [recvBuffer, length_reallocateMsgBuffer, max_self]
      exact le_max_left _ _
  | some msgBuffer =>
      rw [hrecv] at h
      exact h

theorem recvSize_step {f : MessageStore M N} (h : ∀ u, Retrying M (attempts u moves) p u)
    (hc : Consistent S X p) (hf : Represents p.world.shared f) (hstep : PyStep S X p label q)
    (u : T) : p.recvSize u ≤ q.recvSize u ∧
      (p.recvSize u ≤ recvBound M → q.recvSize u ≤ recvBound M) := by
  have hkept : q.recv u = p.recv u → p.recvSize u ≤ q.recvSize u ∧
      (p.recvSize u ≤ recvBound M → q.recvSize u ≤ recvBound M) := by
    intro hrecv
    rw [PySystem.recvSize, PySystem.recvSize, hrecv]
    exact ⟨le_rfl, id⟩
  cases label with
  | putRaise t args e =>
      cases hstep
      exact hkept rfl
  | wake t =>
      cases hstep
      exact hkept rfl
  | put t args event outcome =>
      cases hc.turn hstep with
      | @put _ _ msgs start clock o pick w e hprepare hcall hsection hend =>
          refine hkept ?_
          by_cases hut : u = t
          · subst hut
            rw [after_recv_self]
            exact (putEnd_recv hend).1
          · exact after_recv_of_ne hut
  | get t caller current event outcome =>
      obtain ⟨a, hturn, -⟩ := (h t).get_turn hc hstep
      cases hturn with
      | @intro start clock o pick w e hcall hlimits hbuffer hsection hend =>
          by_cases hut : u = t
          · subst hut
            have hbody := hsection.crit_inv.2.1
            rw [body_eq, hcall] at hbody
            obtain ⟨msgBuffer, hrecv, hle, hbound, -⟩ :=
              getEnd_recv (hf.startShared start) (queueGetWait_cases hbody) hend
            rw [GetArgs.msgBufferSize, hbuffer] at hle hbound
            have hsize : (p.after u w e).recvSize u = msgBuffer.length := by
              rw [PySystem.recvSize, after_recv_self, hrecv]
            rw [hsize]
            exact ⟨(recvSize_le p u).trans hle, fun hp => hbound (recvBuffer_le_bound hp)⟩
          · exact hkept (after_recv_of_ne hut)

end Step

section Alone

/-- Thread `t` is about to retry, with room for the first message of the queue. -/
structure Ready (S : Serializer α) (X : ℕ) (t : T) (p : PySystem T α) (f : MessageStore M N) :
    Prop where
  admissible : Admissible Call.Addressable p.world f
  consistent : Consistent S X p
  enough : 1 ≤ X
  wants : ∃ caller last, p.activity t = .retrying caller last ∧ 1 ≤ last.maxMessagesToGet
  room : ∃ m ms, f.items = m :: ms ∧ msgWeight m ≤ p.recvSize t

/-- Every message put is small enough to be an object in memory. -/
def PyEvent.Addressable : PyEvent T α → Prop
  | .put _ _ event _ => Enters Call.Addressable event
  | _ => True

def PyEvent.IsGet : PyEvent T α → Prop
  | .get _ _ _ _ _ => True
  | _ => False

instance (label : PyEvent T α) : Decidable label.Addressable :=
  match label with
  | .put _ _ (.crit _ (.enter c) _ _ _) _ => inferInstanceAs (Decidable c.Addressable)
  | .put _ _ (.crit _ (.resume _) _ _ _) _ => isTrue trivial
  | .put _ _ (.wake _) _ => isTrue trivial
  | .putRaise _ _ _ => isTrue trivial
  | .get _ _ _ _ _ => isTrue trivial
  | .wake _ => isTrue trivial

variable {f : MessageStore M N}

/-- An attempt that fails makes room for the message it failed on. -/
theorem GetTurn.ready {caller current : GetManyArgs} {a : GetArgs} {event : Event T}
    {outcome : PyOutcome α} (h : GetTurn S X p t caller current a event outcome q)
    (hf : Represents p.world.shared f) (hq : Consistent S X q) {g : MessageStore M N}
    (hg : Admissible Call.Addressable q.world g) {caller' last : GetManyArgs}
    (hretrying : q.activity t = .retrying caller' last) : Ready S X t q g := by
  cases h with
  | @intro start clock o pick w e hcall hlimits hbuffer hstep hend =>
      obtain ⟨-, hbody, hshared, -⟩ := hstep.crit_inv
      have hstart := hf.startShared start
      rw [body_eq, hcall] at hbody
      rw [after_activity_self] at hretrying
      unfold getEnd at hend
      split at hend
      · cases hend
        cases hretrying
      · rename_i r hx
        cases hend
        obtain ⟨hsmall, hread, hrecv⟩ := finishGet_retries hretrying
        obtain ⟨rfl, rfl⟩ := finishGet_retrying hretrying
        have hsection := queueGetWait_cases hbody
        obtain ⟨hK, hX, m, ms, hitems, hsize⟩ := (get_reports hstart hsection hx).first hsmall hread
        have hsame : w.shared = startShared start p.world.shared :=
          hshared.trans (get_unread hstart hsection hx hread)
        have hkept : g.items = f.items := by
          have hrep := hg.represents
          change Represents w.shared g at hrep
          rw [hsame] at hrep
          exact hrep.unique hstart
        refine ⟨hg, hq, hlimits.2 ▸ hX, ?_, m, ms, hkept.trans hitems, ?_⟩
        · rw [after_activity_self]
          exact ⟨_, _, hretrying, hlimits.1 ▸ hK⟩
        · rw [PySystem.recvSize, after_recv_self, hrecv, ← hsize]
          simp only [length_reallocateMsgBuffer, grownSize]
          omega
      · cases hend

/-- A section of `get_many` leaves its thread about to retry exactly if it read nothing and reported
that the first message is larger than the receive buffer. -/
theorem Turn.retrying_iff {caller current : GetManyArgs} {event : Event T}
    {outcome : PyOutcome α} (h : Turn S X p (.get t caller current event outcome) q) :
    (∃ caller' last, q.activity t = .retrying caller' last) ↔
      ∃ r, delivery event = some r ∧ r.status = .msgBufferTooSmall ∧ r.messagesRead = 0 := by
  cases h with
  | @get _ _ _ msgBuffer recv start clock o pick w e hlimit hcall hstep hend =>
      have hget : startCall start = .get ⟨msgBuffer, current.maxMessagesToGet, X, current.block,
        current.timeout⟩ := hcall
      rw [after_activity_self]
      simp only [delivery, hget]
      unfold getEnd at hend
      split at hend
      · rename_i r hx
        cases hend
        rw [hx]
        constructor
        · rintro ⟨caller', last, hretrying⟩
          cases hretrying
        · rintro ⟨r, hnone, -⟩
          cases hnone
      · rename_i r hx
        cases hend
        rw [hx]
        constructor
        · rintro ⟨caller', last, hretrying⟩
          obtain ⟨hsmall, hread, -⟩ := finishGet_retries hretrying
          exact ⟨r, rfl, hsmall, hread⟩
        · rintro ⟨r', hr, hsmall, hread⟩
          cases hr
          refine ⟨caller, current, ?_⟩
          rw [finishGet, if_pos ⟨hsmall, Nat.le_of_eq hread⟩]
      · cases hend

theorem Ready.kept (h : Ready S X t p f) {event : Event T} {w : System T}
    (henters : Enters Call.Addressable event) (hstep : Step program p.world event w)
    (hnone : delivered event = []) (hc : Consistent S X q) (hworld : q.world = w)
    (hactivity : q.activity t = p.activity t) (hrecv : q.recv t = p.recv t) :
    ∃ g : MessageStore M N, Ready S X t q g := by
  obtain ⟨g, hg, hitems⟩ := h.admissible.step_items (fun _ => id) henters hstep
  obtain ⟨m, ms, hfirst, hroom⟩ := h.room
  rw [hnone, List.nil_append, hfirst] at hitems
  refine ⟨g, by rw [hworld]; exact hg, hc, h.enough, ?_, m, _, hitems, ?_⟩
  · rw [hactivity]
    exact h.wants
  · rw [PySystem.recvSize, hrecv]
    exact hroom

theorem Ready.step (h : Ready S X t p f) (hget : ¬label.IsGet) (haddr : label.Addressable)
    (hstep : PyStep S X p label q) : ∃ g : MessageStore M N, Ready S X t q g := by
  have hc := h.consistent.step (h.consistent.turn hstep)
  cases label with
  | putRaise u args e =>
      cases hstep
      exact ⟨f, h.admissible, hc, h.enough, h.wants, h.room⟩
  | wake u =>
      cases hstep with
      | wake hsection =>
          have henters : Enters Call.Addressable (.wake u : Event T) := trivial
          exact h.kept henters hsection rfl hc rfl rfl rfl
  | get u caller current event outcome => exact absurd trivial hget
  | put u args event outcome =>
      have hne : t ≠ u := by
        rintro rfl
        obtain ⟨caller, last, hwants, -⟩ := h.wants
        cases hstep with
        | putEnter hidle _ _ _ =>
            rw [hidle] at hwants
            cases hwants
        | putResume hputting _ _ =>
            rw [hputting] at hwants
            cases hwants
      cases h.consistent.turn hstep with
      | @put _ _ msgs start clock o pick w e hprepare hcall hsection hend =>
          have hput : startCall start = .put ⟨msgs, args.block, args.timeout⟩ := hcall
          have hnone : delivered (.crit u start clock o pick) = [] := by
            simp only [delivered, delivery, hput]
            rfl
          exact h.kept haddr hsection hnone hc rfl (after_activity_of_ne hne)
            (after_recv_of_ne hne)

/-- The retry that finds its message still there is the last one. -/
theorem Ready.retry (h : Ready S X t p f) {caller current : GetManyArgs} {event : Event T}
    {outcome : PyOutcome α} (hstep : PyStep S X p (.get t caller current event outcome) q) :
    q.activity t = .idle ∧ ∃ r, delivery event = some r ∧ 1 ≤ r.messagesRead ∧
      ((∃ xs, outcome = .got xs ∧ xs.length = r.messagesRead) ∨
        outcome = .raised .loadsFailed ∧
          ∃ ms, r.messages = some ms ∧ ∃ m ∈ ms, S.loads m = none) := by
  obtain ⟨caller', last, hretrying, hK⟩ := h.wants
  cases hstep with
  | getEnter hidle _ _ =>
      rw [hidle] at hretrying
      cases hretrying
  | getResume hgetting _ _ =>
      rw [hgetting] at hretrying
      cases hretrying
  | @getRetry _ _ last' _ clock o pick w e hretrying' hargs hsection hend =>
      rw [hretrying'] at hretrying
      cases hretrying
      subst hargs
      obtain ⟨m, ms, hitems, hroom⟩ := h.room
      have hrep := h.admissible.represents
      have hne : f.items ≠ [] := by
        rw [hitems]
        exact List.cons_ne_nil m ms
      generalize ha : (⟨recvBuffer (p.recv t), last.maxMessagesToGet, X, false, defaultTimeout⟩ :
        GetArgs) = a
      have hget : startCall (.enter ((getManyNowaitArgs last.maxMessagesToGet).call X
          (recvBuffer (p.recv t)))) = .get a := by
        rw [← ha]
        rfl
      have hserves : 1 ≤ a.serves (a.start p.world.shared) f.items := by
        rw [hitems]
        refine serves_pos p.world.shared ms ?_ ?_ ?_
        · rw [← ha]
          exact hK
        · rw [← ha]
          exact h.enough
        · rw [← ha]
          exact hroom.trans (recvSize_le p t)
      have hbody := hsection.crit_inv.2.1
      cases hbody.symm.trans (get_section_eq hrep hne hget clock)
      cases hend
      have hholds := served_holds (a := a) hrep (Nat.ne_of_gt hserves)
      obtain ⟨hidle, hends⟩ := finishGet_ends S caller
        (getManyNowaitArgs last.maxMessagesToGet) hholds
      rw [after_activity_self]
      refine ⟨hidle, ((a.start p.world.shared).served a f.items).result, ?_, ?_, ?_⟩
      · simp only [delivery, hget]
        rfl
      · rw [served_result]
        exact hserves
      · rcases hends with ⟨xs, hxs, hgot⟩ | ⟨hbad, hraised⟩
        · exact .inl ⟨xs, hgot, hxs.length_eq.trans hholds.read.symm⟩
        · exact .inr ⟨hraised, _, served_messages hrep a, hbad⟩

end Alone

end Attempts

section Runs
variable [DecidableEq T] {X M N : ℕ} {buffer : Bytes} {recv : T → Option Bytes}
  {moves : List (Move (PySystem T α) (PyEvent T α))} {q : PySystem T α}

/-- A run of a new queue in memory: a ring of at most 2^63 bytes, shorter messages, and receive
buffers of at least the initial size with the threads that have them already. -/
structure MemoryRun (S : Serializer α) (X M N : ℕ) (buffer : Bytes) (recv : T → Option Bytes)
    (moves : List (Move (PySystem T α) (PyEvent T α))) (q : PySystem T α) : Prop where
  capacity : M ≤ 2 ^ 63
  length_buffer : buffer.length = M
  initial : ∀ t msgBuffer, recv t = some msgBuffer → initialRecvBufferSize ≤ msgBuffer.length
  trace : Trace (PyStep S X) (PySystem.init M N buffer recv) moves q
  addressable : ∀ m ∈ moves, m.label.Addressable

section Invariants

theorem MemoryRun.before (h : MemoryRun S X M N buffer recv moves q)
    {before after : List (Move (PySystem T α) (PyEvent T α))}
    {m : Move (PySystem T α) (PyEvent T α)} (he : moves = before ++ m :: after) :
    MemoryRun S X M N buffer recv before m.pre ∧ PyStep S X m.pre m.label m.post := by
  obtain ⟨hbefore, hstep, -⟩ := h.trace.split he
  exact ⟨⟨h.capacity, h.length_buffer, h.initial, hbefore, (forall_before h.addressable he).1⟩,
    hstep⟩

theorem MemoryRun.after (h : MemoryRun S X M N buffer recv moves q)
    {before after : List (Move (PySystem T α) (PyEvent T α))}
    {m : Move (PySystem T α) (PyEvent T α)} (he : moves = before ++ m :: after) :
    MemoryRun S X M N buffer recv (before ++ [m]) m.post := by
  obtain ⟨hbefore, hstep⟩ := h.before he
  refine ⟨h.capacity, h.length_buffer, h.initial, hbefore.trace.snoc hstep, ?_⟩
  intro n hn
  rcases List.mem_append.mp hn with hn | hn
  · exact hbefore.addressable n hn
  · rw [List.mem_singleton.mp hn]
    exact (forall_before h.addressable he).2

theorem worldMoves_addressable {m : Move (PySystem T α) (PyEvent T α)}
    (hstep : PyStep S X m.pre m.label m.post) (haddr : m.label.Addressable) :
    ∀ n ∈ worldMoves m, Enters Call.Addressable n.label := by
  obtain ⟨p, label, q⟩ := m
  dsimp only at hstep
  intro n hn
  cases hstep with
  | putRaise hidle hprepare => cases hn
  | putEnter hidle hprepare hstep hend =>
      cases List.mem_singleton.mp hn
      exact haddr
  | putResume hputting hstep hend =>
      cases List.mem_singleton.mp hn
      trivial
  | getEnter hidle hstep hend =>
      cases List.mem_singleton.mp hn
      trivial
  | getRetry hretrying hargs hstep hend =>
      cases List.mem_singleton.mp hn
      trivial
  | getResume hgetting hstep hend =>
      cases List.mem_singleton.mp hn
      trivial
  | wake hstep =>
      cases List.mem_singleton.mp hn
      trivial

theorem MemoryRun.store (h : MemoryRun S X M N buffer recv moves q) :
    ∃ f : MessageStore M N, Admissible Call.Addressable q.world f := by
  refine admissible_of_trace (fun _ => id) h.capacity h.length_buffer (python_trace h.trace) ?_
  intro n hn
  obtain ⟨m, hm, hn⟩ := List.mem_flatMap.mp hn
  obtain ⟨before, after, he⟩ := List.append_of_mem hm
  exact worldMoves_addressable (h.before he).2 (h.addressable m hm) n hn

theorem MemoryRun.consistent (h : MemoryRun S X M N buffer recv moves q) : Consistent S X q := by
  have hany : ∀ m ∈ moves, True := fun _ _ => trivial
  refine h.trace.invariant ?_ hany .init
  intro m _ hstep hc
  exact hc.step (hc.turn hstep)

theorem MemoryRun.retrying (h : MemoryRun S X M N buffer recv moves q) (t : T) :
    Retrying M (attempts t moves) q t := by
  obtain ⟨hcapacity, hlength, hinitial, htrace, haddr⟩ := h
  induction htrace generalizing t with
  | nil =>
      refine ⟨.inl rfl, hinitial t, ?_, nofun⟩
      rintro r a (hr | hr) <;> cases hr
  | snoc htrace hstep ih =>
      have hbefore := fun m hm => haddr m (List.mem_append_left _ hm)
      have hrun : MemoryRun S X M N buffer recv _ _ :=
        ⟨hcapacity, hlength, hinitial, htrace, hbefore⟩
      obtain ⟨f, hf⟩ := hrun.store
      exact Retrying.step (fun u => ih u hbefore) hrun.consistent hf.represents hstep t

end Invariants

/-- The retries of `get_many`: the buffers of one call grow strictly, the r-th retry needs a queue
of more than 5000 * 1.5^(r-1) bytes, so there are at most logarithmically many; no receive buffer
ever shrinks or passes the bound; a retry follows exactly if nothing was read and the first message
was too large; and a retry with no other consumer before it is the last one and returns messages. -/
theorem retries_bounded (h : MemoryRun S X M N buffer recv moves q) :
    (∀ t, (attempts t moves).IsChain (· < ·) ∧ (attempts t moves).length ≤ 2 * Nat.log 2 M + 3 ∧
      ∀ r, 1 ≤ r → r < (attempts t moves).length → (5000 : ℚ) * (3 / 2) ^ (r - 1) < M) ∧
    (∀ t, (visited (PySystem.init M N buffer recv) moves).Pairwise fun p p' =>
      p.recvSize t ≤ p'.recvSize t ∧
        (p.recvSize t ≤ max 5000 (3 * M / 2) → p'.recvSize t ≤ max 5000 (3 * M / 2))) ∧
    (∀ m ∈ moves, ∀ t caller current event outcome,
      m.label = .get t caller current event outcome →
      ((∃ caller' last, m.post.activity t = .retrying caller' last) ↔
        ∃ r, delivery event = some r ∧ r.status = .msgBufferTooSmall ∧ r.messagesRead = 0)) ∧
    (∀ before failed between retry after t, moves = before ++ failed :: (between ++ retry :: after) →
      ∀ caller current event, failed.label = .get t caller current event .pending →
      ∀ caller' last, failed.post.activity t = .retrying caller' last →
      (∀ m ∈ between, ¬m.label.IsGet) →
      ∀ caller'' current' event' outcome, retry.label = .get t caller'' current' event' outcome →
      retry.post.activity t = .idle ∧ ∃ r, delivery event' = some r ∧ 1 ≤ r.messagesRead ∧
        ((∃ xs, outcome = .got xs ∧ xs.length = r.messagesRead) ∨
          outcome = .raised .loadsFailed ∧
            ∃ ms, r.messages = some ms ∧ ∃ m ∈ ms, S.loads m = none)) := by
  refine ⟨?_, ?_, ?_, ?_⟩
  · intro t
    rcases (h.retrying t).attempted with hnone | ⟨b, hattempted⟩
    · rw [hnone]
      refine ⟨.nil, Nat.zero_le _, ?_⟩
      intro r hr hlen
      exact absurd hlen (Nat.not_lt_zero r)
    · exact ⟨hattempted.chain.imp fun _ _ hgrows => hgrows.2.1, hattempted.length_le,
        fun r hr hlen => hattempted.retry_lt hr hlen⟩
  · intro t
    refine h.trace.ordered ?_ ?_
    · intro p₁ p₂ p₃ h₁ h₂
      exact ⟨h₁.1.trans h₂.1, fun hbound => h₂.2 (h₁.2 hbound)⟩
    · intro m hm
      obtain ⟨before, after, he⟩ := List.append_of_mem hm
      obtain ⟨hbefore, hstep⟩ := h.before he
      obtain ⟨f, hf⟩ := hbefore.store
      exact recvSize_step hbefore.retrying hbefore.consistent hf.represents hstep t
  · intro m hm t caller current event outcome hlabel
    obtain ⟨before, after, he⟩ := List.append_of_mem hm
    obtain ⟨hbefore, hstep⟩ := h.before he
    have hturn := hbefore.consistent.turn hstep
    rw [hlabel] at hturn
    exact hturn.retrying_iff
  · rintro before failed between retry after t he caller current event hfailed caller' last
      hretrying hnoget caller'' current' event' outcome hretry
    obtain ⟨hbefore, hstep⟩ := h.before he
    have he' : moves = (before ++ failed :: between) ++ retry :: after := by
      rw [he, List.append_assoc, List.cons_append]
    obtain ⟨hrun, hlast⟩ := h.before he'
    obtain ⟨f, hf⟩ := hbefore.store
    obtain ⟨g, hg⟩ := (hrun.after rfl).store
    have hconsistent := (hrun.after rfl).consistent
    rw [hfailed] at hstep
    obtain ⟨a, hturn, -⟩ := (hbefore.retrying t).get_turn hbefore.consistent hstep
    have hready := hturn.ready hf.represents hconsistent hg hretrying
    have hgood : ∀ m ∈ between, ¬m.label.IsGet ∧ m.label.Addressable := by
      intro m hm
      refine ⟨hnoget m hm, hrun.addressable m ?_⟩
      exact List.mem_append_right _ (List.mem_cons_of_mem _ hm)
    have hstill : ∃ g : MessageStore M N, Ready S X t retry.pre g := by
      refine (hrun.trace.split rfl).2.2.invariant
        (I := fun p => ∃ g : MessageStore M N, Ready S X t p g) ?_ hgood ⟨g, hready⟩
      rintro m ⟨hget, haddr⟩ hm ⟨g, hg⟩
      exact hg.step hget haddr hm
    obtain ⟨k, hk⟩ := hstill
    rw [hretry] at hlast
    exact hk.retry hlast

end Runs

/-- One message of 6000 bytes, and a consumer with the initial receive buffer. -/
def growingSchedule (producer consumer : T) : List (PyAction T Unit) :=
  let clock : Clock := ⟨⟨0, 0⟩, ⟨0, 0⟩⟩
  [.putMany producer (putArgs () true defaultTimeout) clock none,
    .getMany consumer (getArgs true defaultTimeout) clock none,
    .retry consumer clock none]

section Growing

/-- A section of `get_many` of thread `t` after which the call goes on. -/
def PyEvent.unfinishedGet [DecidableEq T] (t : T) : PyEvent T α → Bool
  | .get u _ _ _ .pending => decide (u = t)
  | _ => false

theorem unfinishedGet_eq [DecidableEq T] {label : PyEvent T α} {t : T}
    (h : label.unfinishedGet t = true) :
    ∃ caller current event, label = .get t caller current event .pending := by
  unfold PyEvent.unfinishedGet at h
  split at h
  · rw [decide_eq_true_iff] at h
    subst h
    exact ⟨_, _, _, rfl⟩
  · cases h

theorem attempt_eq [DecidableEq T] {label : PyEvent T α} {t : T} {size : ℕ}
    (h : label.attempt t = some size) :
    ∃ caller current event outcome, label = .get t caller current event outcome := by
  unfold PyEvent.attempt at h
  split at h
  · split at h
    · rename_i hu
      subst hu
      exact ⟨_, _, _, _, rfl⟩
    · cases h
  · cases h

def Activity.isRetrying : Activity α → Bool
  | .retrying _ _ => true
  | _ => false

theorem isRetrying_eq {p : PySystem T α} {t : T} (h : (p.activity t).isRetrying = true) :
    ∃ caller last, p.activity t = .retrying caller last := by
  unfold Activity.isRetrying at h
  split at h
  · exact ⟨_, _, ‹_›⟩
  · cases h

theorem growing_run :
    ∃ (put failed retry : Move (PySystem (Fin 2) Unit) (PyEvent (Fin 2) Unit))
      (q : PySystem (Fin 2) Unit),
      MemoryRun bulkySerializer 6008 6008 5 (List.replicate 6008 0) (fun _ => none)
        [put, failed, retry] q ∧
      attempts 1 [put, failed, retry] = [5000, 9012] ∧
      failed.label.unfinishedGet 1 = true ∧ (failed.post.activity 1).isRetrying = true ∧
      retry.label.attempt 1 = some 9012 ∧ retry.label.obtained = [()] := by
  have hrun : ((PySystem.init 6008 5 (List.replicate 6008 0) fun _ => none :
      PySystem (Fin 2) Unit).run bulkySerializer 6008 (growingSchedule 0 1)).any (fun r => decide
        (r.1.length = 3 ∧ (∀ m ∈ r.1, m.label.Addressable) ∧ attempts 1 r.1 = [5000, 9012] ∧
        (∀ m ∈ r.1[1]?, m.label.unfinishedGet 1 = true ∧ (m.post.activity 1).isRetrying = true) ∧
        ∀ m ∈ r.1[2]?, m.label.attempt 1 = some 9012 ∧ m.label.obtained = [()])) = true := by
    decide +kernel
  obtain ⟨moves, q, htrace, hq⟩ := pyReach_of_run hrun
  obtain ⟨hlength, haddr, hattempts, hfailed, hretry⟩ := of_decide_eq_true hq
  obtain ⟨put, failed, retry, rfl⟩ := List.length_eq_three.mp hlength
  exact ⟨put, failed, retry, q, ⟨by decide, List.length_replicate, nofun, htrace, haddr⟩,
    hattempts, (hfailed failed rfl).1, (hfailed failed rfl).2, hretry retry rfl⟩

theorem retries_bounded_growing :
    ∃ (put failed retry : Move (PySystem (Fin 2) Unit) (PyEvent (Fin 2) Unit))
      (q : PySystem (Fin 2) Unit) (small taken : GetResult),
      MemoryRun bulkySerializer 6008 6008 5 (List.replicate 6008 0) (fun _ => none)
        [put, failed, retry] q ∧
      attempts 1 [put, failed, retry] = [5000, 9012] ∧
      (attempts 1 [put, failed, retry]).IsChain (· < ·) ∧
      (attempts 1 [put, failed, retry]).length ≤ 2 * Nat.log 2 6008 + 3 ∧
      (5000 : ℚ) * (3 / 2) ^ (1 - 1) < (6008 : ℕ) ∧
      ((visited (PySystem.init 6008 5 (List.replicate 6008 0) fun _ => none)
        [put, failed, retry]).Pairwise fun p p' => p.recvSize 1 ≤ p'.recvSize 1 ∧
          (p.recvSize 1 ≤ max 5000 (3 * 6008 / 2) → p'.recvSize 1 ≤ max 5000 (3 * 6008 / 2))) ∧
      small.status = .msgBufferTooSmall ∧ small.messagesRead = 0 ∧
      (failed.post.activity 1).isRetrying = true ∧ retry.post.activity 1 = .idle ∧
      1 ≤ taken.messagesRead ∧ retry.label.obtained.length = taken.messagesRead := by
  obtain ⟨put, failed, retry, q, hrun, hattempts, hunfinished, hactivity, hagain, htakes⟩ :=
    growing_run
  obtain ⟨caller, current, event, hfailed⟩ := unfinishedGet_eq hunfinished
  obtain ⟨caller', last, hretrying⟩ := isRetrying_eq hactivity
  obtain ⟨caller'', current', event', outcome, hretry⟩ := attempt_eq hagain
  obtain ⟨hsizes, hbuffers, hretried, halone⟩ := retries_bounded hrun
  obtain ⟨hchain, hlength, hcapacity⟩ := hsizes 1
  have hlarge := hcapacity 1 le_rfl (by rw [hattempts]; decide)
  obtain ⟨small, -, hstatus, hread⟩ := (hretried failed (by simp) 1 caller current event .pending
    hfailed).mp ⟨caller', last, hretrying⟩
  obtain ⟨hidle, taken, -, htaken, hends⟩ := halone [put] failed [] retry [] 1 rfl caller current
    event hfailed caller' last hretrying (fun m hm => absurd hm List.not_mem_nil) caller'' current'
    event' outcome hretry
  rcases hends with ⟨xs, rfl, hxs⟩ | ⟨rfl, -⟩
  · exact ⟨put, failed, retry, q, small, taken, hrun, hattempts, hchain, hlength, hlarge,
      hbuffers 1, hstatus, hread, hactivity, hidle, htaken, by rw [hretry]; exact hxs⟩
  · rw [hretry] at htakes
    cases htakes

end Growing
end FasterFifo
