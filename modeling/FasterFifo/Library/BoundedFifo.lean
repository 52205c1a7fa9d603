import FasterFifo.Library.Transition
import Mathlib.Algebra.BigOperators.Group.List.Basic
import Mathlib.Algebra.GroupWithZero.Nat
import Mathlib.Order.Bounds.Basic

/-! First-in first-out stores that carry the proofs of two limits, on the total weight and on the
number of items. `served` counts the items that a batched request takes off the front. -/
namespace BoundedFifo
open Transition
variable {α : Type*}

def total (weight : α → ℕ) (xs : List α) : ℕ := (xs.map weight).sum

section Total
variable (weight : α → ℕ)

@[simp] theorem total_nil : total weight [] = 0 := rfl

@[simp] theorem total_cons (x : α) (xs : List α) :
    total weight (x :: xs) = weight x + total weight xs := rfl

@[simp] theorem total_append (xs ys : List α) :
    total weight (xs ++ ys) = total weight xs + total weight ys := by
  simp only [total, List.map_append, List.sum_append]

theorem total_drop_le (xs : List α) (k : ℕ) : total weight (xs.drop k) ≤ total weight xs := by
  have h := total_append weight (xs.take k) (xs.drop k)
  rw [List.take_append_drop] at h
  omega

theorem total_take_le (xs : List α) (k : ℕ) : total weight (xs.take k) ≤ total weight xs := by
  have h := total_append weight (xs.take k) (xs.drop k)
  rw [List.take_append_drop] at h
  omega

theorem total_one (xs : List α) : total (fun _ => 1) xs = xs.length := by
  induction xs with
  | nil => rfl
  | cons x xs ih => rw [total_cons, ih, List.length_cons, Nat.add_comm]

theorem total_map {g : α → α} (h : ∀ x, weight (g x) = weight x) (xs : List α) :
    total weight (xs.map g) = total weight xs := by
  simp only [total, List.map_map, Function.comp_def, h]

theorem mul_length_le_total {weight : α → ℕ} {w : ℕ} (h : ∀ x, w ≤ weight x) (xs : List α) :
    w * xs.length ≤ total weight xs := by
  induction xs with
  | nil => exact Nat.zero_le _
  | cons x xs ih =>
      have hx := h x
      rw [List.length_cons, Nat.mul_succ, total_cons]
      omega

end Total

structure Store (α : Type*) (weight : α → ℕ) (maxWeight maxCount : ℕ) where
  items : List α
  weight_le : total weight items ≤ maxWeight
  count_le : items.length ≤ maxCount

variable {weight : α → ℕ} {maxWeight maxCount : ℕ}

def Store.empty : Store α weight maxWeight maxCount := ⟨[], Nat.zero_le _, Nat.zero_le _⟩

/-- The room check for a whole batch. -/
def Store.Fits (f : Store α weight maxWeight maxCount) (batch : List α) : Prop :=
  total weight f.items + total weight batch ≤ maxWeight ∧
    f.items.length + batch.length ≤ maxCount

instance (f : Store α weight maxWeight maxCount) (batch : List α) : Decidable (f.Fits batch) :=
  inferInstanceAs (Decidable (_ ∧ _))

def Store.enqueue (f : Store α weight maxWeight maxCount) (batch : List α) (h : f.Fits batch) :
    Store α weight maxWeight maxCount :=
  ⟨f.items ++ batch, by rw [total_append]; exact h.1, by rw [List.length_append]; exact h.2⟩

theorem Store.Fits.left {f : Store α weight maxWeight maxCount} {xs ys : List α}
    (h : f.Fits (xs ++ ys)) : f.Fits xs := by
  simp only [Store.Fits, total_append, List.length_append] at h ⊢
  omega

theorem Store.Fits.right {f : Store α weight maxWeight maxCount} {xs ys : List α}
    (h : f.Fits (xs ++ ys)) : (f.enqueue xs h.left).Fits ys := by
  simp only [Store.Fits, Store.enqueue, total_append, List.length_append] at h ⊢
  omega

theorem Store.Fits.head {f : Store α weight maxWeight maxCount} {x : α} {xs : List α}
    (h : f.Fits (x :: xs)) : f.Fits [x] :=
  Fits.left (show f.Fits ([x] ++ xs) from h)

theorem Store.Fits.tail {f : Store α weight maxWeight maxCount} {x : α} {xs : List α}
    (h : f.Fits (x :: xs)) : (f.enqueue [x] h.head).Fits xs :=
  Fits.right (show f.Fits ([x] ++ xs) from h)

theorem Store.Fits.of_le {f : Store α weight maxWeight maxCount} {xs ys : List α} (h : f.Fits xs)
    (hweight : total weight ys ≤ total weight xs) (hlen : ys.length ≤ xs.length) : f.Fits ys := by
  constructor
  · exact (Nat.add_le_add_left hweight _).trans h.1
  · exact (Nat.add_le_add_left hlen _).trans h.2

/-- A batch may be taken one item at a time. -/
theorem Store.enqueue_cons {f : Store α weight maxWeight maxCount} {x : α} {xs : List α}
    (h : f.Fits (x :: xs)) :
    (f.enqueue [x] h.head).enqueue xs h.tail = f.enqueue (x :: xs) h := by
  simp only [Store.enqueue, List.append_assoc, List.singleton_append]

def Store.dequeue (f : Store α weight maxWeight maxCount) (k : ℕ) :
    Store α weight maxWeight maxCount :=
  ⟨f.items.drop k, (total_drop_le weight f.items k).trans f.weight_le,
    by rw [List.length_drop]; have := f.count_le; omega⟩

inductive Label (α : Type*) where
  | enqueue (batch : List α)
  | dequeue (out : List α)

def Label.accepted : Label α → List α
  | .enqueue batch => batch
  | .dequeue _ => []

def Label.delivered : Label α → List α
  | .enqueue _ => []
  | .dequeue out => out

inductive Step : Store α weight maxWeight maxCount → Label α →
    Store α weight maxWeight maxCount → Prop
  | enqueue (f) (batch : List α) (h : f.Fits batch) : Step f (.enqueue batch) (f.enqueue batch h)
  | dequeue (f) (k : ℕ) : Step f (.dequeue (f.items.take k)) (f.dequeue k)

/-- Nothing is lost, duplicated or reordered by any sequence of operations. -/
theorem conservation {f g : Store α weight maxWeight maxCount}
    {moves : List (Move (Store α weight maxWeight maxCount) (Label α))}
    (h : Trace Step f moves g) :
    (moves.map Move.label).flatMap Label.delivered ++ g.items =
      f.items ++ (moves.map Move.label).flatMap Label.accepted := by
  induction h with
  | nil => simp
  | snoc _ hstep ih =>
      simp only [List.map_append, List.map_cons, List.map_nil, List.flatMap_append,
        List.flatMap_singleton, ← List.append_assoc, ← ih]
      cases hstep with
      | enqueue batch hfit => simp only [Label.accepted, Label.delivered, Store.enqueue,
          List.append_nil, List.append_assoc]
      | dequeue k => simp only [Label.accepted, Label.delivered, Store.dequeue, List.append_nil,
          List.append_assoc, List.take_append_drop]

/-- How many of `xs` a request takes that has taken `j` items of weight `b` so far:
at most `maxItems` items, none once the weight taken reaches `enough`, and none
that would bring the weight above `room`. -/
def served (weight : α → ℕ) (maxItems enough room : ℕ) : ℕ → ℕ → List α → ℕ
  | _, _, [] => 0
  | j, b, x :: xs =>
      if j < maxItems ∧ b < enough ∧ b + weight x ≤ room then
        served weight maxItems enough room (j + 1) (b + weight x) xs + 1
      else 0

section Served
variable (weight) (maxItems enough room : ℕ)

theorem served_le_length (j b : ℕ) (xs : List α) :
    served weight maxItems enough room j b xs ≤ xs.length := by
  induction xs generalizing j b with
  | nil => exact Nat.zero_le _
  | cons x xs ih =>
      rw [served, List.length_cons]
      split
      · exact Nat.succ_le_succ (ih _ _)
      · exact Nat.zero_le _

/-- The count served depends on the weights only. -/
theorem served_map {g : α → α} (h : ∀ x, weight (g x) = weight x) (j b : ℕ) (xs : List α) :
    served weight maxItems enough room j b (xs.map g) =
      served weight maxItems enough room j b xs := by
  induction xs generalizing j b with
  | nil => rfl
  | cons x xs ih => rw [List.map_cons, served, served, h, ih]

theorem open_before_served {j b i : ℕ} {xs : List α}
    (h : i < served weight maxItems enough room j b xs) :
    j + i < maxItems ∧ b + total weight (xs.take i) < enough ∧
      b + total weight (xs.take (i + 1)) ≤ room := by
  induction xs generalizing j b i with
  | nil => exact absurd h (Nat.not_lt_zero i)
  | cons x xs ih =>
      rw [served] at h
      split at h
      · rename_i hopen
        cases i with
        | zero => simpa using hopen
        | succ i =>
            have hi := ih (Nat.lt_of_succ_lt_succ h)
            simp only [List.take_succ_cons, total_cons]
            omega
      · exact absurd h (Nat.not_lt_zero i)

theorem served_room {j b : ℕ} (xs : List α) (h : b ≤ room) :
    b + total weight (xs.take (served weight maxItems enough room j b xs)) ≤ room := by
  cases hk : served weight maxItems enough room j b xs with
  | zero => simpa using h
  | succ k =>
      have hopen := open_before_served weight maxItems enough room
        (hk ▸ Nat.lt_succ_self k : k < served weight maxItems enough room j b xs)
      exact hopen.2.2

theorem closed_at_served (j b : ℕ) (xs : List α) :
    let k := served weight maxItems enough room j b xs
    maxItems ≤ j + k ∨ enough ≤ b + total weight (xs.take k) ∨ k = xs.length ∨
      room < b + total weight (xs.take (k + 1)) := by
  induction xs generalizing j b with
  | nil => exact .inr (.inr (.inl rfl))
  | cons x xs ih =>
      simp only [served]
      split
      · have h := ih (j + 1) (b + weight x)
        simp only [List.take_succ_cons, total_cons, List.length_cons] at h ⊢
        omega
      · rename_i hclosed
        simp only [List.take_zero, total_nil, Nat.zero_add, List.take_succ_cons, total_cons]
        omega

/-- The count served is the least one at which something stops the request. -/
theorem served_isLeast (xs : List α) :
    IsLeast {k | maxItems ≤ k ∨ enough ≤ total weight (xs.take k) ∨ k = xs.length ∨
      room < total weight (xs.take (k + 1))} (served weight maxItems enough room 0 0 xs) := by
  constructor
  · simpa using closed_at_served weight maxItems enough room 0 0 xs
  · intro k hk
    by_contra hlt
    have hbefore := open_before_served weight maxItems enough room (Nat.lt_of_not_le hlt)
    have hlen := served_le_length weight maxItems enough room 0 0 xs
    simp only [Set.mem_ofPred_eq] at hk
    omega

end Served

end BoundedFifo
