/-
  Streams read in pieces of any size.

  A reader gives some of what is left, at most as much as it is asked for and nothing
  only at the end (`Lawful`).  A program that reads one element at a time or an exact
  number of them does the same whatever the pieces are: it does what it does on a
  `tape`, which gives as much as it is asked for (`Agrees`).
-/
import Mathlib
import Vaxpunk.Lib.Exec

namespace Stream

open List

variable {α β γ ε σ τ : Type}
variable {fuel n : ℕ} {s : σ} {f : β → StateT σ (Except ε) γ} {b : β} {R : σ → τ → Prop}
    {x : Except ε (β × σ)} {y : Except ε (β × τ)}

/-- A reader: at most so many elements off the front. -/
abbrev Reader (ε σ α : Type) := ℕ → StateT σ (Except ε) (List α)

/-- A list, read as asked. -/
def tape : Reader ε (List α) α := fun n d => .ok (d.take n, d.drop n)

/-- A list cut into chunks; a read ends at the end of a chunk. -/
def chunks : Reader ε (List (List α)) α := fun n s =>
  match s with
  | [] => .ok ([], [])
  | c :: cs => .ok (c.take n, if c.length ≤ n then cs else c.drop n :: cs)

/-- `read_exact`: reads until there are `n`; none if the reader fails or ends before.
    Each read gives an element at least. -/
def readExact (read : Reader ε σ α) : ℕ → ℕ → σ → Option (List α × σ)
  | _, 0, s => some ([], s)
  | 0, _ + 1, _ => none
  | fuel + 1, n + 1, s =>
    match read (n + 1) s with
    | .error _ => none
    | .ok (x, s) =>
      if x = [] then none
      else (readExact read fuel (n + 1 - x.length) s).map fun y => (x ++ y.1, y.2)

/-! ## Lawful readers -/

/-- `holds s d` says that `d` is left.  What is left can be read, a part of it at least
    of what is asked for. -/
def Lawful (read : Reader ε σ α) (holds : σ → List α → Prop) : Prop :=
  ∀ n s d, holds s d → ∃ k s', read n s = .ok (d.take k, s') ∧ holds s' (d.drop k) ∧ k ≤ n ∧
    (0 < n → d ≠ [] → 0 < k)

/-- Chunks that are not empty, which together are the list. -/
def InChunks (s : List (List α)) (d : List α) : Prop := (∀ c ∈ s, c ≠ []) ∧ s.flatten = d

theorem lawful_chunks : Lawful (chunks : Reader ε (List (List α)) α) InChunks := by
  rintro n s d ⟨hne, rfl⟩
  cases s with
  | nil => exact ⟨0, [], rfl, ⟨hne, rfl⟩, Nat.zero_le n, fun _ h => absurd rfl h⟩
  | cons c cs =>
    have hc : 0 < c.length := length_pos_iff.mpr (hne c mem_cons_self)
    have hcs : ∀ x ∈ cs, x ≠ [] := fun x hx => hne x (mem_cons_of_mem _ hx)
    refine ⟨min n c.length, if c.length ≤ n then cs else c.drop n :: cs, ?_, ⟨?_, ?_⟩,
      min_le_left _ _, fun hn _ => by omega⟩
    · rw [flatten_cons, take_append_of_le_length (min_le_right _ _)]
      rcases le_total n c.length with h | h
      · rw [min_eq_left h]
        rfl
      · rw [min_eq_right h, take_length]
        change Except.ok (c.take n, _) = _
        rw [take_of_length_le h]
    · split_ifs with h
      · exact hcs
      · intro x hx
        rcases mem_cons.mp hx with rfl | hx
        · simp only [ne_eq, drop_eq_nil_iff]
          omega
        · exact hcs x hx
    · rw [flatten_cons, drop_append_of_le_length (min_le_right _ _)]
      split_ifs with h
      · rw [min_eq_right h, drop_length, nil_append]
      · rw [min_eq_left (by omega), flatten_cons]

variable {read : Reader ε σ α} {holds : σ → List α → Prop}

theorem readExact_ok (hread : Lawful read holds) {d : List α} (hs : holds s d) (hfuel : n ≤ fuel)
    (hn : n ≤ d.length) :
    ∃ s', readExact read fuel n s = some (d.take n, s') ∧ holds s' (d.drop n) := by
  induction fuel generalizing n s d with
  | zero =>
    obtain rfl := Nat.le_zero.mp hfuel
    exact ⟨s, rfl, hs⟩
  | succ fuel ih =>
    cases n with
    | zero => exact ⟨s, rfl, hs⟩
    | succ n =>
      have hd : d ≠ [] := by
        rintro rfl
        simp at hn
      obtain ⟨k, s', hok, hs', hk, hpos⟩ := hread (n + 1) s d hs
      have hkpos := hpos (Nat.succ_pos n) hd
      have hlen : (d.take k).length = k := by
        rw [length_take]
        omega
      have hx : d.take k ≠ [] := by
        rw [← length_pos_iff, hlen]
        exact hkpos
      obtain ⟨s'', hrest, hs''⟩ := ih (n := n + 1 - k) hs' (by omega)
        (by rw [length_drop]; omega)
      refine ⟨s'', ?_, ?_⟩
      · rw [readExact, hok]
        simp only [hx, if_false, hlen, hrest, Option.map_some]
        congr 2
        rw [← take_add, Nat.add_sub_cancel' hk]
      · rwa [drop_drop, Nat.add_sub_cancel' hk] at hs''

theorem readExact_none (hread : Lawful read holds) {d : List α} (hs : holds s d) (hn : d.length < n) :
    readExact read fuel n s = none := by
  induction fuel generalizing n s d with
  | zero =>
    cases n with
    | zero => omega
    | succ n => rfl
  | succ fuel ih =>
    cases n with
    | zero => omega
    | succ n =>
      obtain ⟨k, s', hok, hs', hk, -⟩ := hread (n + 1) s d hs
      rw [readExact, hok]
      simp only
      split_ifs with hx
      · rfl
      · have hlen : (d.take k).length ≤ k ∧ (d.take k).length ≤ d.length := by
          rw [length_take]
          omega
        rw [ih hs' (by rw [length_drop]; rw [length_take] at hlen ⊢; omega)]
        rfl

theorem run_bind {x : StateT σ (Except ε) β} {s' : σ} (h : x s = .ok (b, s')) :
    (x >>= f) s = f b s' := by
  change (x s >>= fun p => f p.1 p.2) = _
  rw [h]
  rfl

theorem bind_ok {x : StateT σ (Except ε) β} {s'' : σ} {c : γ} :
    (x >>= f) s = .ok (c, s'') ↔ ∃ b s', x s = .ok (b, s') ∧ f b s' = .ok (c, s'') := by
  change (x s >>= fun p => f p.1 p.2) = _ ↔ _
  rw [Exec.bind_eq_ok]
  constructor
  · rintro ⟨⟨b, s'⟩, hx, hf⟩
    exact ⟨b, s', hx, hf⟩
  · rintro ⟨b, s', hx, hf⟩
    exact ⟨(b, s'), hx, hf⟩

/-! ## What a program ends with -/

/-- From `s` on, `x` ends with a value and a state in `Q` or with an error in `E`. -/
def Ends (x : StateT σ (Except ε) β) (s : σ) (Q : β → σ → Prop) (E : ε → Prop) : Prop :=
  (∀ b s', x s = .ok (b, s') → Q b s') ∧ ∀ e, x s = .error e → E e

namespace Ends

variable {x : StateT σ (Except ε) β} {f : β → StateT σ (Except ε) γ} {s : σ} {E : ε → Prop}
  {Q Q' : β → σ → Prop} {R : γ → σ → Prop}

theorem pure (h : Q b s) : Ends (Pure.pure b) s Q E := by
  refine ⟨fun b' s' hb => ?_, fun e he => ?_⟩
  · cases hb
    exact h
  · cases he

theorem throw {e : ε} (h : E e) : Ends (MonadExcept.throw e) s Q E := by
  refine ⟨fun b' s' hb => ?_, fun e he => ?_⟩
  · cases hb
  · cases he
    exact h

theorem mono (h : Ends x s Q E) (hQ : ∀ b s', Q b s' → Q' b s') : Ends x s Q' E :=
  ⟨fun b s' hb => hQ b s' (h.1 b s' hb), h.2⟩

theorem bind (hx : Ends x s Q E) (hf : ∀ b s', Q b s' → Ends (f b) s' R E) :
    Ends (x >>= f) s R E := by
  cases hs : x s with
  | ok p =>
    have hnext : (x >>= f) s = f p.1 p.2 := run_bind hs
    have hrest := hf p.1 p.2 (hx.1 p.1 p.2 hs)
    unfold Ends at hrest ⊢
    rwa [hnext]
  | error e =>
    have herr : (x >>= f) s = .error e := by
      change (x s >>= fun p => f p.1 p.2) = _
      rw [hs]
      rfl
    unfold Ends
    rw [herr]
    refine ⟨fun b s' hb => ?_, fun e' he => ?_⟩
    · cases hb
    · cases he
      exact hx.2 e hs

end Ends

/-- A reader that is at `pos` of so many elements: a read moves it on by what it gives,
    and gives nothing only at the end. -/
structure Tracks (read : Reader ε σ α) (I : σ → Prop) (pos : σ → ℕ) (size : ℕ) : Prop where
  le : ∀ {s}, I s → pos s ≤ size
  step : ∀ {n s x s'}, I s → read n s = .ok (x, s') →
    I s' ∧ pos s' = pos s + x.length ∧ x.length ≤ n
  stop : ∀ {s s'}, I s → read 1 s = .ok ([], s') → pos s = size

theorem Tracks.readExact {I : σ → Prop} {pos : σ → ℕ} {size : ℕ} (h : Tracks read I pos size)
    {s' : σ} {x : List α} (hs : I s) (hok : Stream.readExact read fuel n s = some (x, s')) :
    I s' ∧ pos s' = pos s + n := by
  induction fuel generalizing n s x s' with
  | zero =>
    cases n with
    | zero =>
      cases hok
      exact ⟨hs, rfl⟩
    | succ n => cases hok
  | succ fuel ih =>
    cases n with
    | zero =>
      cases hok
      exact ⟨hs, rfl⟩
    | succ n =>
      rw [Stream.readExact] at hok
      cases hread : read (n + 1) s with
      | error e =>
        rw [hread] at hok
        cases hok
      | ok p =>
        obtain ⟨hp, hpos, hlen⟩ := h.step hs hread
        rw [hread] at hok
        simp only at hok
        split_ifs at hok
        obtain ⟨y, hy, hxs⟩ := Option.map_eq_some_iff.mp hok
        cases hxs
        obtain ⟨hend, hpos'⟩ := ih hp hy
        exact ⟨hend, by omega⟩

/-! ## Programs that agree -/

/-- Two outcomes that agree: the same value and states in `R`, or the same error. -/
inductive Same (R : σ → τ → Prop) : Except ε (β × σ) → Except ε (β × τ) → Prop
  | ok {b : β} {s : σ} {t : τ} (h : R s t) : Same R (.ok (b, s)) (.ok (b, t))
  | error (e : ε) : Same R (.error e) (.error e)

theorem Same.eq_ok (h : Same R x y) (hx : x = .ok (b, s)) : ∃ t, y = .ok (b, t) ∧ R s t := by
  cases h with
  | ok hst =>
    cases hx
    exact ⟨_, rfl, hst⟩
  | error e => cases hx

theorem Same.eq_error {e : ε} (h : Same R x y) (hx : x = .error e) : y = .error e := by
  cases h with
  | ok hst => cases hx
  | error e =>
    cases hx
    rfl

theorem Same.symm (h : Same R x y) :
    Same (fun t s => R s t) y x := by
  cases h with
  | ok hst => exact .ok hst
  | error e => exact .error e

theorem Same.map_fst (h : Same R x y) : x.map Prod.fst = y.map Prod.fst := by
  cases h <;> rfl

/-- Two programs that agree from states in `R`. -/
def Agrees (R : σ → τ → Prop) (x : StateT σ (Except ε) β) (y : StateT τ (Except ε) β) : Prop :=
  ∀ s t, R s t → Same R (x s) (y t)

namespace Agrees

variable {R : σ → τ → Prop} {x : StateT σ (Except ε) β} {y : StateT τ (Except ε) β}

theorem pure (b : β) : Agrees (ε := ε) R (Pure.pure b) (Pure.pure b) := fun _ _ h => .ok h

theorem throw (e : ε) : Agrees R (MonadExcept.throw e : StateT σ (Except ε) β)
    (MonadExcept.throw e : StateT τ (Except ε) β) := fun _ _ _ => .error e

theorem bind {g : β → StateT τ (Except ε) γ} (h : Agrees R x y) (hf : ∀ b, Agrees R (f b) (g b)) :
    Agrees R (x >>= f) (y >>= g) := by
  intro s t hst
  change Same R (x s >>= fun p => f p.1 p.2) (y t >>= fun p => g p.1 p.2)
  have hxy := h s t hst
  cases hx : x s with
  | error e =>
    rw [hx] at hxy
    cases hy : y t with
    | error e' =>
      rw [hy] at hxy
      cases hxy
      exact .error e
    | ok p =>
      rw [hy] at hxy
      cases hxy
  | ok p =>
    rw [hx] at hxy
    cases hy : y t with
    | error e' =>
      rw [hy] at hxy
      cases hxy
    | ok q =>
      rw [hy] at hxy
      cases hxy with
      | ok h => exact hf _ _ _ h

theorem join (h : Agrees R x y) : Agrees (fun s s' => ∃ t, R s t ∧ R s' t) x x := by
  rintro s s' ⟨t, hs, hs'⟩
  have hxy := h s t hs
  have hxy' := h s' t hs'
  cases hx : x s with
  | error e =>
    rw [hx] at hxy
    have hy := hxy.eq_error rfl
    rw [hy] at hxy'
    rw [hxy'.symm.eq_error rfl]
    exact .error e
  | ok p =>
    rw [hx] at hxy
    obtain ⟨t', hy, hst⟩ := hxy.eq_ok rfl
    rw [hy] at hxy'
    obtain ⟨s'', hx', hst'⟩ := hxy'.symm.eq_ok rfl
    rw [hx']
    exact .ok ⟨t', hst, hst'⟩

end Agrees

end Stream
