import FasterFifo.Library.CyclicBuffer

/-! Computations that stop with the fault that the unchecked machine operation would have run into:
a copy outside one of its blocks, an unsigned subtraction below zero, or a failed assertion. -/
namespace CheckedMemory
open CyclicBuffer
variable {β : Type*}

inductive Fault where
  | sourceOverrun
  | destinationOverrun
  | underflow
  | assertion (msg : String)
  deriving DecidableEq, Repr

/-- Copy `n` elements from offset `off` of `src` to offset `pos` of `dst`. -/
def memcpy (dst : List β) (pos : ℕ) (src : List β) (off n : ℕ) : Except Fault (List β) :=
  if src.length < off + n then .error .sourceOverrun
  else if dst.length < pos + n then .error .destinationOverrun
  else .ok (splice dst pos ((src.drop off).take n))

def checkedSub (a b : ℕ) : Except Fault ℕ :=
  if a < b then .error .underflow else .ok (a - b)

def logAssert (cond : Bool) (msg : String) : Except Fault Unit :=
  if cond then .ok () else .error (.assertion msg)

@[simp] theorem ok_bind {α γ : Type} (a : α) (f : α → Except Fault γ) :
    ((Except.ok a : Except Fault α) >>= f) = f a := rfl

/-- A sequence that ran to its end ran through its first half. -/
theorem bind_eq_ok {α γ : Type} {x : Except Fault α} {f : α → Except Fault γ} {c : γ} :
    (x >>= f) = .ok c ↔ ∃ a, x = .ok a ∧ f a = .ok c := by
  cases x with
  | error e => simp [bind, Except.bind]
  | ok a => simp [bind, Except.bind]

/-- `Q` holds of the value, if the computation has one. -/
def Yields {α : Type} (Q : α → Prop) (x : Except Fault α) : Prop := ∀ a, x = .ok a → Q a

section Yields
variable {α γ : Type} {P : α → Prop} {Q : γ → Prop}

theorem Yields.ok {c : γ} (h : Q c) : Yields Q (.ok c) := by
  rintro _ ⟨⟩
  exact h

theorem Yields.bind {x : Except Fault α} {f : α → Except Fault γ} (hx : Yields P x)
    (hf : ∀ a, P a → Yields Q (f a)) : Yields Q (x >>= f) := by
  intro c hc
  obtain ⟨a, ha, hfa⟩ := bind_eq_ok.mp hc
  exact hf a (hx a ha) c hfa

theorem Yields.after {x : Except Fault α} {f : α → Except Fault γ} (hf : ∀ a, Yields Q (f a)) :
    Yields Q (x >>= f) :=
  Yields.bind (fun _ _ => trivial) fun a (_ : True) => hf a

end Yields

theorem memcpy_ok {dst src : List β} {pos off n : ℕ} (hs : off + n ≤ src.length)
    (hd : pos + n ≤ dst.length) :
    memcpy dst pos src off n = .ok (splice dst pos ((src.drop off).take n)) := by
  rw [memcpy, if_neg (by omega), if_neg (by omega)]

theorem checkedSub_ok {a b : ℕ} (h : b ≤ a) : checkedSub a b = .ok (a - b) :=
  if_neg (by omega)

@[simp] theorem logAssert_true (msg : String) : logAssert true msg = .ok () := rfl

theorem Yields.asserted {γ : Type} {Q : γ → Prop} {cond : Bool} {msg : String}
    {f : Unit → Except Fault γ} (hf : cond = true → Yields Q (f ())) :
    Yields Q (logAssert cond msg >>= f) := by
  cases cond with
  | false =>
      intro c hc
      cases hc
  | true => exact hf rfl

end CheckedMemory
