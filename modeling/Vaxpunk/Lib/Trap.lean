/-
  Programs that may panic.  A program either has a value, fails with an error of
  its own, or panics: an index out of range, or a number that its type cannot
  hold.  That a program is safe is that it does not panic.
-/
import Mathlib

/-- Why a program has no value. -/
inductive Stop (ε : Type) where
  | panic
  | err (e : ε)
  deriving DecidableEq, Repr

/-- Programs with errors in `ε`. -/
abbrev Trap (ε : Type) := Except (Stop ε)

namespace Trap

open List

variable {ε ε' α β σ : Type}
variable {xs ys : List α} {i j : ℕ}

def panic : Trap ε α := .error .panic

def fail (e : ε) : Trap ε α := .error (.err e)

def okOr (e : ε) : Option α → Trap ε α
  | some a => .ok a
  | none => fail e

/-- Another error in place of the program's own. -/
def orErr (e : ε') : Trap ε α → Trap ε' α
  | .ok a => .ok a
  | .error .panic => panic
  | .error (.err _) => fail e

def at_ (xs : List α) (i : ℕ) : Trap ε α :=
  match xs[i]? with
  | some a => .ok a
  | none => panic

/-- The elements from `i` up to `j`, if there are such. -/
def get? (xs : List α) (i j : ℕ) : Option (List α) :=
  if i ≤ j ∧ j ≤ xs.length then some ((xs.drop i).take (j - i)) else none

/-- The elements from `i` up to `j`. -/
def range (xs : List α) (i j : ℕ) : Trap ε (List α) :=
  match get? xs i j with
  | some ys => .ok ys
  | none => panic

/-- The elements from `i` on replaced by `ys`. -/
def write (xs : List α) (i : ℕ) (ys : List α) : Trap ε (List α) :=
  if i + ys.length ≤ xs.length then .ok (xs.take i ++ ys ++ xs.drop (i + ys.length)) else panic

/-- A number in a type of `w` bits. -/
def fits (w n : ℕ) : Trap ε ℕ := if n < 2 ^ w then .ok n else panic

/-! ## Values -/

theorem bind_ok {x : Trap ε α} {f : α → Trap ε β} {b : β} :
    (x >>= f) = .ok b ↔ ∃ a, x = .ok a ∧ f a = .ok b := by
  cases x with
  | ok a =>
    constructor
    · exact fun h => ⟨a, rfl, h⟩
    · rintro ⟨a', heq, h⟩
      cases heq
      exact h
  | error e =>
    constructor
    · intro h
      cases h
    · rintro ⟨a', heq, -⟩
      cases heq

theorem get?_eq_some :
    get? xs i j = some ys ↔ i ≤ j ∧ j ≤ xs.length ∧ ys = (xs.drop i).take (j - i) := by
  unfold get?
  split_ifs with h
  · simp only [Option.some.injEq, h, true_and, eq_comm]
  · simp only [false_iff]
    exact fun hh => h ⟨hh.1, hh.2.1⟩

theorem range_eq_ok :
    (range xs i j : Trap ε (List α)) = .ok ys ↔ get? xs i j = some ys := by
  unfold range
  cases get? xs i j with
  | none => simp [panic]
  | some zs => simp

theorem at_eq_ok {a : α} : (at_ xs i : Trap ε α) = .ok a ↔ xs[i]? = some a := by
  unfold at_
  cases xs[i]? with
  | none => simp [panic]
  | some b => simp

theorem orErr_eq_ok {e : ε'} {x : Trap ε α} {a : α} : orErr e x = .ok a ↔ x = .ok a := by
  cases x with
  | ok b => simp [orErr]
  | error s => cases s <;> simp [orErr, panic, fail]

theorem write_eq_ok {zs : List α} : (write xs i ys : Trap ε (List α)) = .ok zs ↔
    i + ys.length ≤ xs.length ∧ zs = xs.take i ++ ys ++ xs.drop (i + ys.length) := by
  unfold write
  split_ifs with h
  · simp [h, eq_comm]
  · simp [h, panic]

theorem fits_eq_ok {w n m : ℕ} : (fits w n : Trap ε ℕ) = .ok m ↔ n < 2 ^ w ∧ m = n := by
  unfold fits
  split_ifs with h
  · simp [h, eq_comm]
  · simp [h, panic]

/-! ## Safety

`Ensures x P` says that `x` does not panic, and that its value, if it has one,
satisfies `P`. -/

def Ensures (x : Trap ε α) (P : α → Prop) : Prop := x ≠ .error .panic ∧ ∀ a, x = .ok a → P a

variable {step : σ → α → Trap ε σ}

namespace Ensures

variable {x : Trap ε α} {P Q : α → Prop} {R : β → Prop} {f : α → Trap ε β} {a : α} {e : ε}

theorem ne_panic (h : Ensures x P) : x ≠ panic := h.1

theorem of_ok (h : Ensures x P) (ha : x = .ok a) : P a := h.2 a ha

theorem ok (h : P a) : Ensures (.ok a : Trap ε α) P := by
  refine ⟨(fun heq => by cases heq), fun b hb => ?_⟩
  cases hb
  exact h

theorem pure (h : P a) : Ensures (Pure.pure a : Trap ε α) P := ok h

theorem fail : Ensures (Trap.fail e : Trap ε α) P := ⟨(fun h => by cases h), (fun b hb => by cases hb)⟩

theorem imp (h : Ensures x P) (hPQ : ∀ a, P a → Q a) : Ensures x Q := ⟨h.1, fun a ha => hPQ a (h.2 a ha)⟩

theorem val (h : Ensures x P) : Ensures x fun a => x = .ok a ∧ P a := ⟨h.1, fun a ha => ⟨ha, h.2 a ha⟩⟩

theorem bind (h : Ensures x P) (hf : ∀ a, P a → Ensures (f a) R) : Ensures (x >>= f) R := by
  cases x with
  | ok a => exact hf a (h.2 a rfl)
  | error s =>
    cases s with
    | panic => exact absurd rfl h.1
    | err e => exact fail

theorem bind_ok (hx : x = .ok a) (h : Ensures (f a) R) : Ensures (x >>= f) R := by
  rw [hx]
  exact h

theorem ite {c : Prop} [Decidable c] {y : Trap ε α} (ht : c → Ensures x P) (hf : ¬c → Ensures y P) :
    Ensures (if c then x else y) P := by
  split_ifs with h
  · exact ht h
  · exact hf h

theorem at_ (hi : i < xs.length) (h : ∀ a, xs[i]? = some a → P a) :
    Ensures (Trap.at_ xs i : Trap ε α) P := by
  unfold Trap.at_
  rw [List.getElem?_eq_getElem hi]
  exact ok (h _ (List.getElem?_eq_getElem hi))

theorem bind_at (hi : i < xs.length) (hf : ∀ a, Ensures (f a) R) : Ensures (Trap.at_ xs i >>= f) R :=
  .bind_ok (at_eq_ok.2 (getElem?_eq_getElem hi)) (hf _)

theorem range {P : List α → Prop} (hi : i ≤ j) (hj : j ≤ xs.length)
    (h : P ((xs.drop i).take (j - i))) : Ensures (Trap.range xs i j : Trap ε (List α)) P := by
  rw [Trap.range_eq_ok.2 (Trap.get?_eq_some.2 ⟨hi, hj, rfl⟩)]
  exact ok h

theorem write {P : List α → Prop} (hi : i + ys.length ≤ xs.length)
    (h : P (xs.take i ++ ys ++ xs.drop (i + ys.length))) :
    Ensures (Trap.write xs i ys : Trap ε (List α)) P := by
  rw [Trap.write_eq_ok.2 ⟨hi, rfl⟩]
  exact ok h

theorem fits {w n : ℕ} {P : ℕ → Prop} (hn : n < 2 ^ w) (h : P n) : Ensures (Trap.fits w n : Trap ε ℕ) P := by
  rw [Trap.fits_eq_ok.2 ⟨hn, rfl⟩]
  exact ok h

theorem foldlM {I : σ → Prop} (h : ∀ s, ∀ a ∈ xs, I s → Ensures (step s a) I) :
    ∀ {s : σ}, I s → Ensures (xs.foldlM step s) I := by
  induction xs with
  | nil => exact fun hs => ok hs
  | cons a xs ih =>
    intro s hs
    rw [foldlM_cons]
    exact bind (h s a (mem_cons_self ..) hs) fun s' hs' =>
      ih (fun s b hb => h s b (mem_cons_of_mem _ hb)) hs'

theorem foldlM_sum {I : ℕ → σ → Prop} {c : α → ℕ} (h : ∀ m s, ∀ a ∈ xs, I m s → Ensures (step s a) (I (m + c a))) :
    ∀ {m : ℕ} {s : σ}, I m s → Ensures (xs.foldlM step s) (I (m + (xs.map c).sum)) := by
  induction xs with
  | nil => exact fun hs => ok hs
  | cons a xs ih =>
    intro m s hs
    rw [foldlM_cons, map_cons, sum_cons, ← Nat.add_assoc]
    exact bind (h m s a (mem_cons_self ..) hs) fun s' hs' =>
      ih (fun m s b hb => h m s b (mem_cons_of_mem _ hb)) hs'

theorem mapM {f : α → Trap ε β} {R : α → β → Prop} (h : ∀ a ∈ xs, Ensures (f a) (R a)) :
    Ensures (xs.mapM f) fun ys => ys.length = xs.length ∧
      ∀ (i : ℕ) b, ys[i]? = some b → ∃ a, xs[i]? = some a ∧ R a b := by
  induction xs with
  | nil => exact ok ⟨rfl, fun i b hb => by cases hb⟩
  | cons a xs ih =>
    rw [mapM_cons]
    refine bind (h a (mem_cons_self ..)) fun b hb =>
      bind (ih fun a' ha' => h a' (mem_cons_of_mem _ ha')) fun bs hbs => pure ⟨by simp [hbs.1], fun i c hc => ?_⟩
    cases i with
    | zero =>
      cases hc
      exact ⟨a, rfl, hb⟩
    | succ i => exact hbs.2 i c hc

end Ensures

end Trap
