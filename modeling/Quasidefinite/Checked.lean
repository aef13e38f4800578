/-!
# Computations that can fault

Matrices arrive unchecked: their fields may contradict each other, and an index stored in one of
them may point anywhere. Every access that relies on such data is a checked computation, which
either answers or stops with the `Fault` it met. A fault is a broken promise of the caller and
is kept apart from the errors a caller is expected to handle, which have types of their own.

This module fixes the faults, the checked accesses to arrays, and the loops over ascending
indices (`foldRange`, `allRange`). A loop asks for its indices one by one, so a range whose end
is absurd faults at the first index that is wrong and costs nothing. A loop is the fold over the
list of its indices (`foldRange_eq_foldlM`), and an invariant carries over from one end of it to
the other (`exists_foldRange`).
-/

namespace Quasidefinite

/-! ## 1. Faults -/

/-- What went wrong in a checked computation. -/
inductive Fault
  /-- An index at or past the end of an array. -/
  | indexOutOfRange
  /-- A slice whose ends are out of order or past the end of the array. -/
  | sliceOutOfRange
  /-- Two arrays, or an array and a dimension, that have to agree in length do not. -/
  | lengthMismatch
  /-- The operation asks for a matrix of another shape. -/
  | shapeMismatch
  /-- The symmetric reading of a matrix that stores an entry below the diagonal. -/
  | belowDiagonal
  /-- A subtraction of sizes went below zero. -/
  | negativeSize
  /-- An array larger than the address space was asked for. -/
  | tooLarge
  /-- A walk through an index structure came back to where it had been. -/
  | endless
  deriving DecidableEq, Repr

/-- A computation that answers or stops with a fault. -/
abbrev Checked := Except Fault

/-- A computation that answers, stops with a fault, or fails with an error the caller handles. -/
abbrev Attempt (ε : Type) := ExceptT ε Checked

namespace Attempt

variable {ε δ α : Type}

/-- Fails with the error `e` unless `p` holds. -/
def ensure (p : Prop) [Decidable p] (e : ε) : Attempt ε Unit :=
  if p then pure () else throw e

/-- The answer of a computation that cannot fault, with its error renamed by `f`. -/
def ofExcept (f : δ → ε) : Except δ α → Attempt ε α
  | .ok a => pure a
  | .error e => throw (f e)

/-- A computation with its error renamed by `f`. -/
def mapError (f : δ → ε) (x : Attempt δ α) : Attempt ε α := ExceptT.adapt f x

end Attempt

namespace Checked

variable {α σ : Type}

/-! ## 2. Checked access -/

/-- Stops with the fault `f` unless `p` holds. -/
def require (p : Prop) [Decidable p] (f : Fault) : Checked Unit :=
  if p then .ok () else .error f

/-- The element at position `i`. -/
def entry (xs : Array α) (i : Nat) : Checked α :=
  match xs[i]? with
  | some x => .ok x
  | none => .error .indexOutOfRange

/-- The array with the element at position `i` replaced. -/
def store (xs : Array α) (i : Nat) (x : α) : Checked (Array α) :=
  if h : i < xs.size then .ok (xs.set i x h) else .error .indexOutOfRange

/-- The array with the element at position `i` changed by `f`. -/
def adjust (xs : Array α) (i : Nat) (f : α → α) : Checked (Array α) :=
  if h : i < xs.size then .ok (xs.set i (f xs[i]) h) else .error .indexOutOfRange

/-- The elements at the positions `lo`, …, `hi - 1`. -/
def slice (xs : Array α) (lo hi : Nat) : Checked (Array α) :=
  if lo ≤ hi ∧ hi ≤ xs.size then .ok (xs.extract lo hi) else .error .sliceOutOfRange

/-- The stack with `x` on top of it, if an array with room for `room` elements can hold it. -/
def push (room : Nat) (stack : List α) (x : α) : Checked (List α) :=
  if stack.length < room then .ok (x :: stack) else .error .indexOutOfRange

/-- The difference of two sizes. -/
def difference (a b : Nat) : Checked Nat :=
  if b ≤ a then .ok (a - b) else .error .negativeSize

/-- One more than the largest number of machine words an array can hold: two to the power of
    60. -/
def addressSpace : Nat := 1152921504606846976

/-- Stops unless an array can have `n` elements. -/
def fits (n : Nat) : Checked Unit := require (n < addressSpace) .tooLarge

@[simp] theorem require_of (p : Prop) [Decidable p] (f : Fault) (h : p) :
    require p f = .ok () := by
  simp [require, h]

@[simp] theorem entry_of_lt (xs : Array α) (i : Nat) (h : i < xs.size) :
    entry xs i = .ok xs[i] := by
  simp [entry, h]

@[simp] theorem store_of_lt (xs : Array α) (i : Nat) (x : α) (h : i < xs.size) :
    store xs i x = .ok (xs.set i x h) := by
  simp [store, h]

@[simp] theorem adjust_of_lt (xs : Array α) (i : Nat) (f : α → α) (h : i < xs.size) :
    adjust xs i f = .ok (xs.set i (f xs[i]) h) := by
  simp [adjust, h]

@[simp] theorem push_of_lt {room : Nat} {stack : List α} (x : α) (h : stack.length < room) :
    push room stack x = .ok (x :: stack) := if_pos h

/-! ## 3. Loops over ascending indices -/

/-- Runs `f` on the `count` indices from `start` on, threading a state. -/
def foldFrom (f : σ → Nat → Checked σ) : (count start : Nat) → σ → Checked σ
  | 0, _, s => .ok s
  | count + 1, start, s =>
    match f s start with
    | .ok s => foldFrom f count (start + 1) s
    | .error e => .error e

/-- Runs `f` on the indices `lo`, …, `hi - 1`, threading a state. -/
def foldRange (lo hi : Nat) (f : σ → Nat → Checked σ) (s : σ) : Checked σ :=
  foldFrom f (hi - lo) lo s

/-- Runs `f` on the indices `n - 1`, …, `0`, threading a state. -/
def foldDown (f : σ → Nat → Checked σ) : (n : Nat) → σ → Checked σ
  | 0, s => .ok s
  | n + 1, s =>
    match f s n with
    | .ok s => foldDown f n s
    | .error e => .error e

/-- Holds if `p` holds of the `count` indices from `start` on; stops at the first failure. -/
def allFrom (p : Nat → Checked Bool) : (count start : Nat) → Checked Bool
  | 0, _ => .ok true
  | count + 1, start =>
    match p start with
    | .ok true => allFrom p count (start + 1)
    | .ok false => .ok false
    | .error e => .error e

/-- Holds if `p` holds of `lo`, …, `hi - 1`; stops at the first failure. -/
def allRange (lo hi : Nat) (p : Nat → Checked Bool) : Checked Bool :=
  allFrom p (hi - lo) lo

@[simp] theorem foldFrom_zero (f : σ → Nat → Checked σ) (start : Nat) (s : σ) :
    foldFrom f 0 start s = .ok s := rfl

theorem foldFrom_succ (f : σ → Nat → Checked σ) (count start : Nat) (s : σ) :
    foldFrom f (count + 1) start s = f s start >>= foldFrom f count (start + 1) := by
  simp only [foldFrom, bind, Except.bind]
  cases f s start <;> rfl

theorem foldFrom_eq_foldlM (f : σ → Nat → Checked σ) (count start : Nat) (s : σ) :
    foldFrom f count start s = (List.range' start count).foldlM f s := by
  induction count generalizing start s with
  | zero => rfl
  | succ count ih =>
    simp only [foldFrom_succ, List.range'_succ, List.foldlM_cons]
    exact bind_congr fun s => ih (start + 1) s

/-- **The loop is the left fold over the list of its indices.** -/
theorem foldRange_eq_foldlM (lo hi : Nat) (f : σ → Nat → Checked σ) (s : σ) :
    foldRange lo hi f s = (List.range' lo (hi - lo)).foldlM f s :=
  foldFrom_eq_foldlM f _ _ s

@[simp] theorem foldRange_self (lo : Nat) (f : σ → Nat → Checked σ) (s : σ) :
    foldRange lo lo f s = .ok s := by
  simp [foldRange]

theorem exists_foldFrom (inv : Nat → σ → Prop) (f : σ → Nat → Checked σ) (count start : Nat) (s : σ)
    (hstart : inv start s)
    (hstep : ∀ i s, start ≤ i → i < start + count → inv i s →
      ∃ t, f s i = .ok t ∧ inv (i + 1) t) :
    ∃ t, foldFrom f count start s = .ok t ∧ inv (start + count) t := by
  induction count generalizing start s with
  | zero => exact ⟨s, rfl, hstart⟩
  | succ count ih =>
    obtain ⟨t, ht, hinv⟩ := hstep start s (Nat.le_refl start) (by omega) hstart
    obtain ⟨u, hu, hend⟩ := ih (start + 1) t hinv
      (fun i s hlo hhi => hstep i s (by omega) (by omega))
    refine ⟨u, ?_, ?_⟩
    · rw [foldFrom, ht]
      exact hu
    · rw [show start + (count + 1) = start + 1 + count by omega]
      exact hend

/-- **The rule for loops**: what holds of the state before the first index and is kept by every
    step holds after the last one, and the loop does not fault. -/
theorem exists_foldRange (inv : Nat → σ → Prop) (f : σ → Nat → Checked σ) (lo hi : Nat) (s : σ)
    (hle : lo ≤ hi) (hstart : inv lo s)
    (hstep : ∀ i s, lo ≤ i → i < hi → inv i s → ∃ t, f s i = .ok t ∧ inv (i + 1) t) :
    ∃ t, foldRange lo hi f s = .ok t ∧ inv hi t := by
  have hend : lo + (hi - lo) = hi := by omega
  obtain ⟨t, ht, hinv⟩ := exists_foldFrom inv f (hi - lo) lo s hstart
    (fun i s hlo hhi => hstep i s hlo (by omega))
  rw [hend] at hinv
  exact ⟨t, ht, hinv⟩

theorem allFrom_eq_true_iff (p : Nat → Checked Bool) (count start : Nat) :
    allFrom p count start = .ok true ↔ ∀ i, start ≤ i → i < start + count → p i = .ok true := by
  induction count generalizing start with
  | zero => simp [allFrom]; omega
  | succ count ih =>
    constructor
    · intro h i hlo hhi
      match hp : p start with
      | .ok true =>
        rw [allFrom, hp] at h
        by_cases hi : i = start
        · rw [hi, hp]
        · exact (ih (start + 1)).1 h i (by omega) (by omega)
      | .ok false => simp [allFrom, hp] at h
      | .error e => simp [allFrom, hp] at h
    · intro h
      rw [allFrom, h start (Nat.le_refl start) (by omega)]
      exact (ih (start + 1)).2 fun i hlo hhi => h i (by omega) (by omega)

/-- A test of all indices succeeds if and only if it succeeds at each of them. -/
theorem allRange_eq_true_iff (p : Nat → Checked Bool) (lo hi : Nat) :
    allRange lo hi p = .ok true ↔ ∀ i, lo ≤ i → i < hi → p i = .ok true := by
  rw [allRange, allFrom_eq_true_iff]
  constructor
  · intro h i hlo hhi
    exact h i hlo (by omega)
  · intro h i hlo hhi
    exact h i hlo (by omega)

end Checked

end Quasidefinite
