/-
  Patterns with stars.  A name matches when it can be split into parts, one for
  each character of the pattern in order.
-/
import Mathlib

namespace Glob

open List

variable {α β : Type} (star : α → Prop) (fits : α → β → Prop)

/-- A character stands for the part `u` of the name: a star for any part, another
    one for a single character that fits it. -/
def Stands (c : α) (u : List β) : Prop := star c ∨ ∃ d, fits c d ∧ u = [d]

/-- The name `s` can be split according to the pattern `p`. -/
def Splits (p : List α) (s : List β) : Prop :=
  ∃ parts : List (List β), Forall₂ (Stands star fits) p parts ∧ parts.flatten = s

variable {star fits} {c : α} {d : β} {p q : List α} {s : List β}

@[simp] theorem splits_nil : Splits star fits [] s ↔ s = [] := by
  simp [Splits, eq_comm]

theorem splits_cons :
    Splits star fits (c :: p) s ↔ ∃ u v, Stands star fits c u ∧ Splits star fits p v ∧ u ++ v = s := by
  simp only [Splits, forall₂_cons_left_iff]
  constructor
  · rintro ⟨_, ⟨u, us, hu, hus, rfl⟩, rfl⟩
    exact ⟨u, us.flatten, hu, ⟨us, hus, rfl⟩, rfl⟩
  · rintro ⟨u, _, hu, ⟨us, hus, rfl⟩, rfl⟩
    exact ⟨u :: us, ⟨u, us, hu, hus, rfl⟩, rfl⟩

theorem splits_star (hc : star c) :
    Splits star fits (c :: p) s ↔ ∃ k, Splits star fits p (s.drop k) := by
  rw [splits_cons]
  constructor
  · rintro ⟨u, v, -, hv, rfl⟩
    exact ⟨u.length, by simpa using hv⟩
  · rintro ⟨k, hk⟩
    exact ⟨s.take k, s.drop k, .inl hc, hk, take_append_drop k s⟩

theorem splits_char (hc : ¬star c) :
    Splits star fits (c :: p) (d :: s) ↔ fits c d ∧ Splits star fits p s := by
  rw [splits_cons]
  constructor
  · rintro ⟨u, v, h | ⟨d', hd', rfl⟩, hv, h'⟩
    · exact absurd h hc
    · obtain ⟨rfl, rfl⟩ := cons.inj h'
      exact ⟨hd', hv⟩
  · rintro ⟨hd, hs⟩
    exact ⟨[d], s, .inr ⟨d, hd, rfl⟩, hs, rfl⟩

theorem splits_empty : ∀ {p : List α}, Splits star fits p [] ↔ ∀ c ∈ p, star c
  | [] => by simp
  | c :: p => by
    by_cases hc : star c
    · simp [splits_star hc, splits_empty (p := p), hc]
    · simp only [splits_cons, append_eq_nil_iff, forall_mem_cons, hc, false_and, iff_false]
      rintro ⟨u, v, h | ⟨d, -, rfl⟩, -, hu, -⟩
      · exact hc h
      · exact cons_ne_nil d [] hu

theorem splits_append : ∀ {p : List α} {s : List β}, (∀ c ∈ p, ¬star c) →
    Splits star fits (p ++ q) s → Splits star fits q (s.drop p.length)
  | [], s, _, h => h
  | c :: p, s, hp, h => by
    obtain ⟨u, v, hu | ⟨d, -, rfl⟩, hv, rfl⟩ := splits_cons.1 h
    · exact absurd hu (hp c mem_cons_self)
    · exact splits_append (p := p) (fun c' hc' => hp c' (mem_cons_of_mem c hc')) hv

end Glob
