/-
  Reading values off the front of a byte string.  `Reads r w a` says that `r`
  reads the value `a` from the bytes `w`, whatever follows them: it is closed
  under the ways readers are put together, so that a writer's output is read back
  piece by piece.
-/
import Vaxpunk.Lib.Words

namespace Codec

open List

abbrev Byte := BitVec 8

/-- Reads a value and leaves the bytes after it. -/
abbrev Reader (ε : Type) := StateT (List Byte) (Except ε)

variable {ε α β σ : Type}

/-- The value `r` reads from `bytes`; what is left over does not matter. -/
def value (r : Reader ε α) (bytes : List Byte) : Except ε α := (r.run bytes).map Prod.fst

/-- The next `n` bytes; `short` if there are not so many. -/
def take (short : ε) (n : ℕ) : Reader ε (List Byte) := fun s =>
  if s.length < n then .error short else .ok (s.take n, s.drop n)

def rest : Reader ε (List Byte) := fun s => .ok (s, [])

/-- A little-endian number of `w / 8` bytes. -/
def int (short : ε) (w : ℕ) : Reader ε (BitVec w) := do
  let b ← take short (w / 8)
  pure (BitVec.ofNat w (Words.ofLe b))

/-- A number as little-endian bytes. -/
def put {w : ℕ} (v : BitVec w) : List Byte := Words.le (w / 8) v.toNat

@[simp] theorem length_put {w : ℕ} (v : BitVec w) : (put v).length = w / 8 := Words.length_le _ _

/-- Reads values until the bytes are used up, `fuel` of them at most; `s` goes
    from each step to the next. -/
def many (step : σ → Reader ε (α × σ)) : ℕ → σ → List Byte → Except ε (List α)
  | 0, _, _ => .ok []
  | _ + 1, _, [] => .ok []
  | fuel + 1, s, b :: bs =>
    match (step s).run (b :: bs) with
    | .error e => .error e
    | .ok ((a, s), bs) => (many step fuel s bs).map (a :: ·)

/-- Reads values until the bytes are used up.  Each step uses at least a byte, so
    there are no more steps than bytes. -/
def all (step : σ → Reader ε (α × σ)) (s : σ) (bytes : List Byte) : Except ε (List α) :=
  many step bytes.length s bytes

/-! ## What a reader reads -/

variable {f : α → Reader ε β} {step : σ → Reader ε (α × σ)} {r : Reader ε α} {x : Except ε α} {w w' : List Byte}
variable {a : α} {b : β} {s : σ} {as : List α}

/-- `r` reads `a` from `w`, whatever follows. -/
def Reads (r : Reader ε α) (w : List Byte) (a : α) : Prop :=
  ∀ bytes, r.run (w ++ bytes) = .ok (a, bytes)

namespace Reads

theorem pure (a : α) : Reads (Pure.pure a : Reader ε α) [] a := fun _ => rfl

theorem bind (h : Reads r w a) (h' : Reads (f a) w' b) :
    Reads (r >>= f) (w ++ w') b := by
  intro bytes
  rw [append_assoc, StateT.run_bind, h]
  exact h' bytes

theorem bind_pure (h : Reads r w a) (h' : Reads (f a) [] b) : Reads (r >>= f) w b := by
  simpa using h.bind h'

theorem map (h : Reads r w a) (f : α → β) : Reads (f <$> r) w (f a) := by
  intro bytes
  rw [StateT.run_map, h]
  rfl

theorem lift (h : x = .ok a) : Reads (liftM x : Reader ε α) [] a := fun _ => by
  rw [h]
  rfl

theorem value (h : Reads r w a) (bytes : List Byte) : value r (w ++ bytes) = .ok a := by
  rw [Codec.value, h]
  rfl

theorem value_all (h : Reads r w a) : Codec.value r w = .ok a := by
  simpa using h.value []

end Reads

theorem reads_take (short : ε) (w : List Byte) : Reads (take short w.length) w w := by
  intro bytes
  change (if _ then _ else _) = _
  rw [if_neg (by simp)]
  simp

theorem reads_int (short : ε) {w : ℕ} (h : 8 * (w / 8) = w) (v : BitVec w) :
    Reads (int short w) (put v) v := by
  refine Reads.bind_pure (a := put v) ?_ ?_
  · simpa only [length_put] using reads_take short (put v)
  · intro bytes
    have hv : BitVec.ofNat w (Words.ofLe (put v)) = v := by
      rw [put, Words.ofLe_le, h, Nat.mod_eq_of_lt v.isLt]
      simp
    rw [hv]
    rfl

theorem ok_bind {f : α → Except ε β} {y : Except ε β} (h : x = .ok a) (h' : f a = y) :
    (x >>= f) = y := by
  rw [h]
  exact h'

theorem value_rest_bind (f : List Byte → Reader ε β) (w : List Byte) :
    value (rest >>= f) w = value (f w) [] := rfl

theorem value_bind_value (h : Reads r w a) (h' : value (f a) w' = .ok b) : value (r >>= f) (w ++ w') = .ok b := by
  rw [value, StateT.run_bind, h]
  exact h'

theorem run_bind_ok (h : (r >>= f).run w = .ok (b, w')) :
    ∃ a w'', r.run w = .ok (a, w'') ∧ (f a).run w'' = .ok (b, w') := by
  rw [StateT.run_bind] at h
  cases hr : r.run w with
  | error e => rw [hr] at h; cases h
  | ok x => rw [hr] at h; exact ⟨x.1, x.2, rfl, h⟩

theorem run_lift_ok (h : (liftM x : Reader ε α).run w = .ok (a, w')) : x = .ok a := by
  cases x with
  | error e => cases h
  | ok b => cases h; rfl

theorem value_bind_ok (h : value (r >>= f) w = .ok b) : ∃ a w', r.run w = .ok (a, w') ∧ value (f a) w' = .ok b := by
  rw [value, StateT.run_bind] at h
  cases hr : r.run w with
  | error e => rw [hr] at h; cases h
  | ok x => rw [hr] at h; exact ⟨x.1, x.2, rfl, h⟩

/-! ## Strings of values -/

/-- The steps read `as` from `ws`, one each. -/
inductive Steps (step : σ → Reader ε (α × σ)) : σ → List (List Byte) → List α → Prop
  | nil (s : σ) : Steps step s [] []
  | cons {s s' : σ} {w : List Byte} {ws : List (List Byte)} {a : α} {as : List α}
      (ne : w ≠ []) (read : Reads (step s) w (a, s')) (tail : Steps step s' ws as) :
      Steps step s (w :: ws) (a :: as)

theorem Steps.many {ws : List (List Byte)}
    (h : Steps step s ws as) : ∀ {fuel : ℕ}, ws.flatten.length ≤ fuel →
      Codec.many step fuel s ws.flatten = .ok as := by
  induction h with
  | nil s =>
    intro fuel _
    cases fuel <;> rfl
  | @cons s s' w ws a as ne read tail ih =>
    intro fuel hf
    rw [flatten_cons, length_append] at hf
    have hw : 0 < w.length := length_pos_iff.mpr ne
    obtain ⟨fuel, rfl⟩ : ∃ n, fuel = n + 1 := ⟨fuel - 1, by omega⟩
    obtain ⟨c, cs, hc⟩ : ∃ c cs, w ++ ws.flatten = c :: cs := exists_cons_of_ne_nil (by simp [ne])
    have hread := read ws.flatten
    rw [flatten_cons, hc, Codec.many, ← hc, hread]
    have hfuel : ws.flatten.length ≤ fuel := by omega
    simp only [ih hfuel]
    rfl

/-- **A string of values is read back.** -/
theorem Steps.all {ws : List (List Byte)}
    (h : Steps step s ws as) : Codec.all step s ws.flatten = .ok as := h.many le_rfl

/-- The values that steps read, one after the other, from whatever bytes. -/
inductive Taken (step : σ → Reader ε (α × σ)) : σ → List α → Prop
  | nil (s : σ) : Taken step s []
  | cons {s s' : σ} {a : α} {as : List α} {bytes left : List Byte}
      (read : (step s).run bytes = .ok ((a, s'), left)) (tail : Taken step s' as) :
      Taken step s (a :: as)

theorem taken_of_many : ∀ {fuel : ℕ} {s : σ} {bytes : List Byte} {as : List α},
    many step fuel s bytes = .ok as → Taken step s as
  | 0, s, _, as, h => by
    cases h
    exact .nil s
  | fuel + 1, s, [], as, h => by
    cases h
    exact .nil s
  | fuel + 1, s, b :: bs, as, h => by
    rw [many] at h
    cases hr : (step s).run (b :: bs) with
    | error e => rw [hr] at h; cases h
    | ok x =>
      obtain ⟨⟨a, s'⟩, left⟩ := x
      rw [hr] at h
      cases hm : many step fuel s' left with
      | error e => simp only [hm] at h; cases h
      | ok as' =>
        simp only [hm] at h
        cases h
        exact .cons hr (taken_of_many hm)

theorem taken_of_all {bytes : List Byte}
    (h : all step s bytes = .ok as) : Taken step s as := taken_of_many h

end Codec
