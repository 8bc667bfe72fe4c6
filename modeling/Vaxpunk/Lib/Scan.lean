/-
  A text taken apart into tokens.  A step reads one token off the front, and leaves
  no more than it was given; `tokens` reads until nothing is left.

  `Yields step w r` says what a piece `w` of a text gives, whatever follows it: tokens,
  or an error.  It is closed under joining pieces, so that a text written piece by
  piece is read back piece by piece.
-/
import Mathlib

namespace Scan

open List

variable {α β τ ε : Type}

/-- Reads tokens until nothing is left, `fuel` of them at most. -/
def scan (step : α → List α → Except ε (τ × List α)) : ℕ → List α → Except ε (List τ)
  | 0, _ => .ok []
  | _ + 1, [] => .ok []
  | fuel + 1, c :: s => do
    let (t, s) ← step c s
    let ts ← scan step fuel s
    .ok (t :: ts)

/-- The tokens of a text.  Each takes a character at least, so that there are no more
    tokens than characters. -/
def tokens (step : α → List α → Except ε (τ × List α)) (s : List α) : Except ε (List τ) :=
  scan step s.length s

/-- A step leaves a part of what it was given. -/
def Shrinks (step : α → List α → Except ε (τ × List α)) : Prop :=
  ∀ c s t s', step c s = .ok (t, s') → s'.length ≤ s.length

variable {step : α → List α → Except ε (τ × List α)}

theorem scan_fuel (hstep : Shrinks step) {n m : ℕ} {s : List α} (hn : s.length ≤ n)
    (hm : s.length ≤ m) : scan step n s = scan step m s := by
  induction n generalizing m s with
  | zero =>
    obtain rfl := length_eq_zero_iff.mp (Nat.le_zero.mp hn)
    cases m <;> rfl
  | succ n ih =>
    cases s with
    | nil => cases m <;> rfl
    | cons c s =>
      obtain ⟨m, rfl⟩ : ∃ k, m = k + 1 := ⟨m - 1, by simp only [length_cons] at hm; omega⟩
      rw [scan, scan]
      cases hc : step c s with
      | error e => rfl
      | ok ts =>
        have hle : ts.2.length ≤ s.length := hstep c s ts.1 ts.2 hc
        have hrest : scan step n ts.2 = scan step m ts.2 :=
          ih (hle.trans (Nat.le_of_succ_le_succ hn)) (hle.trans (Nat.le_of_succ_le_succ hm))
        change (scan step n ts.2 >>= _) = (scan step m ts.2 >>= _)
        rw [hrest]

theorem tokens_cons (hstep : Shrinks step) (c : α) (s : List α) :
    tokens step (c :: s) =
      step c s >>= fun ts => tokens step ts.2 >>= fun rest => .ok (ts.1 :: rest) := by
  rw [tokens, length_cons, scan]
  cases hc : step c s with
  | error e => rfl
  | ok ts =>
    have hle : ts.2.length ≤ s.length := hstep c s ts.1 ts.2 hc
    change (scan step s.length ts.2 >>= _) = (tokens step ts.2 >>= _)
    rw [tokens, scan_fuel hstep hle le_rfl]

/-! ## What a piece gives -/

/-- The piece `w` gives `r`, whatever follows it. -/
def Yields (step : α → List α → Except ε (τ × List α)) (w : List α) (r : Except ε (List τ)) :
    Prop :=
  ∀ s, tokens step (w ++ s) = r >>= fun ts => (tokens step s).map (ts ++ ·)

namespace Yields

variable {w w' : List α} {ts ts' : List τ} {e : ε}

theorem nil : Yields step [] (.ok []) := by
  intro s
  change tokens step s = (tokens step s).map ([] ++ ·)
  cases tokens step s <;> rfl

variable {c : α}

theorem tok (hstep : Shrinks step) {t : τ} (h : ∀ s, step c (w ++ s) = .ok (t, s)) :
    Yields step (c :: w) (.ok [t]) := by
  intro s
  rw [cons_append, tokens_cons hstep, h]
  change (tokens step s >>= _) = (tokens step s).map _
  cases tokens step s <;> rfl

theorem fail (hstep : Shrinks step) (h : ∀ s, step c (w ++ s) = .error e) :
    Yields step (c :: w) (.error e) := by
  intro s
  rw [cons_append, tokens_cons hstep, h]
  rfl

variable {r : Except ε (List τ)}

theorem append (h : Yields step w (.ok ts)) (h' : Yields step w' r) :
    Yields step (w ++ w') (r.map (ts ++ ·)) := by
  intro s
  rw [append_assoc, h, h']
  cases r with
  | error e => rfl
  | ok ts' =>
    change ((tokens step s).map _).map _ = (tokens step s).map _
    cases tokens step s with
    | error e => rfl
    | ok ts'' => exact congrArg Except.ok (append_assoc _ _ _).symm

theorem append_error (h : Yields step w (.error e)) (w' : List α) :
    Yields step (w ++ w') (.error e) := by
  intro s
  rw [append_assoc, h]
  rfl

variable {g : β → List τ} {f : β → List α} {bs : List β}

theorem flatMap (h : ∀ b ∈ bs, Yields step (f b) (.ok (g b))) :
    Yields step (bs.flatMap f) (.ok (bs.flatMap g)) := by
  induction bs with
  | nil => exact .nil
  | cons b bs ih =>
    exact (h b mem_cons_self).append (ih fun b hb => h b (mem_cons_of_mem _ hb))

theorem map {g : α → τ} (h : ∀ c ∈ w, Yields step [c] (.ok [g c])) :
    Yields step w (.ok (w.map g)) := by
  have hpieces := flatMap h
  rwa [flatMap_singleton', ← map_eq_flatMap] at hpieces

theorem all (h : Yields step w r) : tokens step w = r := by
  have hw := h []
  rw [append_nil] at hw
  rw [hw]
  cases r with
  | error e => rfl
  | ok ts => exact congrArg Except.ok (append_nil ts)

end Yields

/-- The piece `w` gives `ts` where `p` holds, and the error `e` where it does not. -/
def Checks (step : α → List α → Except ε (τ × List α)) (e : ε) (p : Prop) (w : List α) (ts : List τ) : Prop :=
  (p → Yields step w (.ok ts)) ∧ (¬ p → Yields step w (.error e))

section checks
variable {w w' : List α} {ts ts' : List τ} {e : ε} {p q : Prop}

theorem Yields.checks (h : Yields step w (.ok ts)) (hp : p) : Checks step e p w ts :=
  ⟨fun _ => h, fun h => absurd hp h⟩

theorem Yields.append_checks (h : Yields step w (.ok ts)) (h' : Checks step e p w' ts') :
    Checks step e p (w ++ w') (ts ++ ts') :=
  ⟨fun hp => h.append (h'.1 hp), fun hp => h.append (h'.2 hp)⟩

theorem Checks.append (h : Checks step e p w ts) (h' : Checks step e q w' ts') :
    Checks step e (p ∧ q) (w ++ w') (ts ++ ts') := by
  refine ⟨fun hpq => (h.1 hpq.1).append (h'.1 hpq.2), fun hpq => ?_⟩
  by_cases hp : p
  · exact (h.1 hp).append (h'.2 fun hq => hpq ⟨hp, hq⟩)
  · exact (h.2 hp).append_error w'

theorem Checks.flatMap {p : β → Prop} {g : β → List τ} {f : β → List α} {bs : List β}
    (h : ∀ b ∈ bs, Checks step e (p b) (f b) (g b)) :
    Checks step e (∀ b ∈ bs, p b) (bs.flatMap f) (bs.flatMap g) := by
  induction bs with
  | nil => exact Yields.nil.checks nofun
  | cons b bs ih =>
    rw [forall_mem_cons]
    exact (h b mem_cons_self).append (ih fun b hb => h b (mem_cons_of_mem _ hb))

end checks

end Scan
