/-
  Maps from numbers, as the list of their entries in increasing order of key.
-/
import Mathlib

namespace SortedMap

open List

variable {α : Type}

/-- Put `v` at `k`, in place of what is there. -/
def insert (k : ℕ) (v : α) : List (ℕ × α) → List (ℕ × α)
  | [] => [(k, v)]
  | (a, w) :: m =>
    if k < a then (k, v) :: (a, w) :: m
    else if k = a then (k, v) :: m
    else (a, w) :: insert k v m

def erase (k : ℕ) (m : List (ℕ × α)) : List (ℕ × α) := m.filter (·.1 ≠ k)

def lastBelow (k : ℕ) (m : List (ℕ × α)) : Option (ℕ × α) := (m.filter (·.1 < k)).getLast?

/-- The entries from `k` up to `e`, not including `e`. -/
def between (k e : ℕ) (m : List (ℕ × α)) : List (ℕ × α) :=
  m.filter fun x => k ≤ x.1 ∧ x.1 < e

/-- Keys are in increasing order, each once. -/
def Sorted (m : List (ℕ × α)) : Prop := m.Pairwise fun x y => x.1 < y.1

section
variable {m : List (ℕ × α)} {k : ℕ} {v : α} {x y : ℕ × α}

theorem Sorted.nil : Sorted ([] : List (ℕ × α)) := List.Pairwise.nil

theorem Sorted.erase (h : Sorted m) (k : ℕ) : Sorted (erase k m) := h.filter _

theorem mem_erase : x ∈ erase k m ↔ x ∈ m ∧ x.1 ≠ k := by simp [SortedMap.erase]

theorem mem_insert (h : Sorted m) : x ∈ insert k v m ↔ x = (k, v) ∨ x ∈ m ∧ x.1 ≠ k := by
  induction m with
  | nil => simp [insert]
  | cons a m ih =>
    obtain ⟨ha, hm⟩ := pairwise_cons.mp h
    have hne : k ≤ a.1 → ∀ y ∈ m, y.1 ≠ k := fun hk y hy => by
      have := ha y hy
      omega
    unfold insert
    split_ifs with hlt heq
    · constructor
      · rintro (_ | ⟨_, _ | ⟨_, hx⟩⟩)
        · exact .inl rfl
        · exact .inr ⟨mem_cons_self, by omega⟩
        · exact .inr ⟨mem_cons_of_mem _ hx, hne hlt.le x hx⟩
      · rintro (rfl | ⟨hx, -⟩)
        · exact mem_cons_self
        · exact mem_cons_of_mem _ hx
    · constructor
      · rintro (_ | ⟨_, hx⟩)
        · exact .inl rfl
        · exact .inr ⟨mem_cons_of_mem _ hx, hne heq.le x hx⟩
      · rintro (rfl | ⟨hx, hk⟩)
        · exact mem_cons_self
        · rcases mem_cons.mp hx with rfl | hx
          · exact absurd heq.symm hk
          · exact mem_cons_of_mem _ hx
    · rw [mem_cons, mem_cons, ih hm]
      constructor
      · rintro (rfl | rfl | ⟨hx, hk⟩)
        · exact .inr ⟨.inl rfl, fun h => heq h.symm⟩
        · exact .inl rfl
        · exact .inr ⟨.inr hx, hk⟩
      · rintro (rfl | ⟨rfl | hx, hk⟩)
        · exact .inr (.inl rfl)
        · exact .inl rfl
        · exact .inr (.inr ⟨hx, hk⟩)

theorem Sorted.insert (h : Sorted m) (k : ℕ) (v : α) : Sorted (insert k v m) := by
  induction m with
  | nil => exact pairwise_singleton _ _
  | cons a m ih =>
    obtain ⟨ha, hm⟩ := pairwise_cons.mp h
    unfold SortedMap.insert
    split_ifs with hlt heq
    · refine pairwise_cons.mpr ⟨fun y hy => ?_, h⟩
      rcases mem_cons.mp hy with rfl | hy
      · exact hlt
      · exact hlt.trans (ha y hy)
    · refine pairwise_cons.mpr ⟨fun y hy => ?_, hm⟩
      rw [heq]
      exact ha y hy
    · refine pairwise_cons.mpr ⟨fun y hy => ?_, ih hm⟩
      rcases (mem_insert hm).mp hy with rfl | ⟨hy, -⟩
      · change a.1 < k
        omega
      · exact ha y hy

theorem Sorted.eq_of_key (h : Sorted m) (hx : x ∈ m) (hy : y ∈ m) (hxy : x.1 = y.1) : x = y := by
  induction m with
  | nil => exact absurd hx not_mem_nil
  | cons a m ih =>
    obtain ⟨ha, hm⟩ := pairwise_cons.mp h
    rcases mem_cons.mp hx with rfl | hx' <;> rcases mem_cons.mp hy with rfl | hy'
    · rfl
    · have := ha y hy'
      omega
    · have := ha x hx'
      omega
    · exact ih hm hx' hy'

theorem mem_of_lookup (h : m.lookup k = some v) : (k, v) ∈ m := by
  induction m with
  | nil => cases h
  | cons a m ih =>
    rw [lookup_cons] at h
    split at h
    · next hk =>
      cases h
      rw [beq_iff_eq] at hk
      rw [hk]
      exact mem_cons_self
    · exact mem_cons_of_mem _ (ih h)

theorem Sorted.lookup_of_mem (h : Sorted m) (hx : (k, v) ∈ m) : m.lookup k = some v := by
  cases hl : m.lookup k with
  | none => simpa using lookup_eq_none_iff.mp hl _ hx
  | some w => rw [show w = v from congrArg Prod.snd (h.eq_of_key (mem_of_lookup hl) hx rfl)]

theorem lastBelow_eq_some (h : Sorted m) (hx : lastBelow k m = some x) :
    x ∈ m ∧ x.1 < k ∧ ∀ y ∈ m, y.1 < k → y.1 ≤ x.1 := by
  have hmem := mem_of_getLast? hx
  rw [mem_filter, decide_eq_true_eq] at hmem
  refine ⟨hmem.1, hmem.2, fun y hy hyk => ?_⟩
  have hs : Sorted (m.filter (·.1 < k)) := h.filter _
  have hy' : y ∈ m.filter (·.1 < k) := mem_filter.mpr ⟨hy, by simpa using hyk⟩
  obtain ⟨init, hinit⟩ := List.getLast?_eq_some_iff.mp hx
  rw [hinit] at hy' hs
  rcases mem_append.mp hy' with hy' | hy'
  · exact ((pairwise_append.mp hs).2.2 y hy' x mem_cons_self).le
  · rw [mem_singleton.mp hy']

theorem lastBelow_eq_none (h : lastBelow k m = none) : ∀ y ∈ m, k ≤ y.1 := by
  intro y hy
  rw [lastBelow, List.getLast?_eq_none_iff] at h
  by_contra hlt
  have : y ∈ m.filter (·.1 < k) := mem_filter.mpr ⟨hy, by simpa using hlt⟩
  rw [h] at this
  exact absurd this not_mem_nil

end

end SortedMap
