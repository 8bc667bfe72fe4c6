/-
  Counting what is in numbered places and in hand.

  Something taken out of its place is in hand until it is put in another: what is
  swapped changes no count.  `Counts` is for reference counts: places that may each
  refer to something, and how many do.
-/
import Mathlib

namespace Tally

variable {ι α κ : Type} {f : ι → α} {i : ι} {e : α} {hand : List α} {Q Q' : α → Bool}

/-- How many places and hands hold something with `Q`. -/
noncomputable def tally (f : ι → α) (hand : List α) (Q : α → Bool) : ℕ :=
  {i | Q (f i)}.ncard + hand.countP Q

theorem tally_cons : tally f (e :: hand) Q = tally f hand Q + if Q e then 1 else 0 := by
  simp only [tally, List.countP_cons]
  omega

theorem tally_congr (hf : ∀ i, Q (f i) = Q' (f i)) (hh : ∀ e ∈ hand, Q e = Q' e) :
    tally f hand Q = tally f hand Q' := by
  have hset : {i | Q (f i)} = {i | Q' (f i)} := Set.ext fun i => by simp [hf i]
  rw [tally, tally, hset, List.countP_congr fun e he => by rw [hh e he]]

section
variable (hfin : {i | Q (f i)}.Finite)
include hfin

theorem tally_eq_zero : tally f hand Q = 0 ↔ (∀ i, Q (f i) = false) ∧ ∀ e ∈ hand, Q e = false := by
  rw [tally, Nat.add_eq_zero_iff, Set.ncard_eq_zero hfin, List.countP_eq_zero]
  simp [Set.eq_empty_iff_forall_notMem]

theorem tally_pos (h : Q (f i)) : 0 < tally f hand Q := by
  refine Nat.pos_of_ne_zero fun h0 => ?_
  rw [((tally_eq_zero hfin).mp h0).1 i] at h
  exact Bool.noConfusion h

theorem finite_update [DecidableEq ι] : {j | Q (Function.update f i e j)}.Finite := by
  refine (hfin.insert i).subset fun j hj => ?_
  by_cases hji : j = i
  · exact .inl hji
  · refine .inr ?_
    simpa [Function.update_of_ne hji] using hj

/-- **What is swapped changes no count.** -/
theorem tally_swap [DecidableEq ι] : tally (Function.update f i e) (f i :: hand) Q = tally f (e :: hand) Q := by
  -- the other places
  have hrest : {j | Q (Function.update f i e j)} \ {i} = {j | Q (f j)} \ {i} := by
    ext j
    by_cases hji : j = i <;> simp [hji]
  have hsplit : ∀ g : ι → α, {j | Q (g j)}.Finite →
      {j | Q (g j)}.ncard = ({j | Q (g j)} \ {i}).ncard + if Q (g i) then 1 else 0 := by
    intro g hg
    split_ifs with hi
    · exact (Set.ncard_sdiff_singleton_add_one (s := {j | Q (g j)}) hi hg).symm
    · rw [Set.sdiff_singleton_eq_self (by simpa using hi), Nat.add_zero]
  have hnew := hsplit (Function.update f i e) (finite_update hfin)
  rw [hrest, Function.update_self] at hnew
  have hold := hsplit f hfin
  rw [tally_cons, tally_cons, tally, tally, hnew, hold]
  omega

end

/-! ## Reference counts -/

section counts
variable [DecidableEq κ] {g : ι → Option κ} {n n' : κ → ℕ} {c : κ}

/-- `n` has of each thing how many places refer to it, a finite number. -/
def Counts (g : ι → Option κ) (n : κ → ℕ) : Prop :=
  ∀ c, {i | g i == some c}.Finite ∧ n c = tally g [] (· == some c)

theorem Counts.congr (h : Counts g n) (hn : ∀ c, n' c = n c) : Counts g n' :=
  fun c => ⟨(h c).1, (hn c).trans (h c).2⟩

theorem Counts.eq_zero (h : Counts g n) : n c = 0 ↔ ∀ i, g i ≠ some c := by
  rw [(h c).2, tally_eq_zero (h c).1]
  simp

theorem Counts.update [DecidableEq ι] (h : Counts g n) (i : ι) (o : Option κ)
    (hn : ∀ c, n' c + (if g i = some c then 1 else 0) = n c + if o = some c then 1 else 0) :
    Counts (Function.update g i o) n' := by
  intro c
  have hswap : tally (Function.update g i o) [g i] (· == some c) = tally g [o] (· == some c) := tally_swap (h c).1
  simp only [tally_cons, beq_iff_eq, ← (h c).2] at hswap
  have := hn c
  exact ⟨finite_update (f := g) (Q := (· == some c)) (h c).1, by omega⟩

end counts

end Tally
