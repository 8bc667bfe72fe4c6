/-
  Queues: insertion into a queue ordered by a key, after the entries of the same
  key, and families of queues whose members are in one of them at most.
-/
import Mathlib

namespace Queues

open List

variable {α ι : Type} {a b : α} {l : List α}

/-! ## Ordered by a key -/

section key
variable (key : α → ℕ)

/-- `a` put after the entries whose key isn't above its own. -/
def insertAfter (a : α) (l : List α) : List α := l.orderedInsert (fun a b => key a < key b) a

/-- In the order of the keys. -/
def Ordered (l : List α) : Prop := l.Pairwise fun a b => key a ≤ key b

variable {key}

theorem insertAfter_perm : insertAfter key a l ~ a :: l := perm_orderedInsert ..

theorem mem_insertAfter : b ∈ insertAfter key a l ↔ b = a ∨ b ∈ l := mem_orderedInsert ..

theorem pairwise_insertAfter {R : α → α → Prop} (hR : ∀ {a b}, R a b → key a ≤ key b) (h : l.Pairwise R)
    (hlt : ∀ b ∈ l, key a < key b → R a b) (hle : ∀ b ∈ l, key b ≤ key a → R b a) :
    (insertAfter key a l).Pairwise R := by
  induction l with
  | nil => simp [insertAfter]
  | cons b l ih =>
    rw [insertAfter, orderedInsert]
    split_ifs with hab
    · refine pairwise_cons.mpr ⟨fun c hc => hlt c hc ?_, h⟩
      obtain rfl | hc' := mem_cons.mp hc
      exacts [hab, hab.trans_le (hR (rel_of_pairwise_cons h hc'))]
    · refine pairwise_cons.mpr ⟨fun c hc => ?_, ih h.of_cons (fun c hc => hlt c (by simp [hc]))
        fun c hc => hle c (by simp [hc])⟩
      obtain rfl | hc := mem_insertAfter.mp hc
      exacts [hle b (by simp) (not_lt.mp hab), rel_of_pairwise_cons h hc]

theorem Ordered.insertAfter (h : Ordered key l) (a : α) : Ordered key (insertAfter key a l) :=
  pairwise_insertAfter id h (fun _ _ => le_of_lt) fun _ _ => id

end key

/-! ## Families -/

section family
variable {f : ι → List α} {i j : ι}

def put [DecidableEq ι] (f : ι → List α) (i : ι) (a : α) : ι → List α := Function.update f i (f i ++ [a])

def take [DecidableEq α] (f : ι → List α) (a : α) : ι → List α := fun i => (f i).erase a

/-- No queue has a member twice, and none is in two queues. -/
structure Apart (f : ι → List α) : Prop where
  nodup : ∀ i, (f i).Nodup
  once : ∀ {i j a}, a ∈ f i → a ∈ f j → i = j

theorem mem_put [DecidableEq ι] : b ∈ put f i a j ↔ b ∈ f j ∨ j = i ∧ b = a := by
  by_cases h : j = i
  · subst h
    simp [put]
  · simp [put, h]

theorem Apart.mem_take [DecidableEq α] (h : Apart f) : b ∈ take f a i ↔ b ∈ f i ∧ b ≠ a := by
  rw [take, (h.nodup i).mem_erase_iff, and_comm]

theorem Apart.put [DecidableEq ι] (h : Apart f) (i : ι) (ha : ∀ j, a ∉ f j) : Apart (put f i a) where
  nodup j := by
    by_cases hj : j = i
    · subst hj
      simpa [Queues.put, nodup_append, h.nodup j] using fun b hb (heq : b = a) => ha j (heq ▸ hb)
    · simpa [Queues.put, hj] using h.nodup j
  once {j k b} hb hb' := by
    rw [mem_put] at hb hb'
    by_cases heq : b = a
    · subst heq
      exact (hb.resolve_left (ha _)).1.trans (hb'.resolve_left (ha _)).1.symm
    · exact h.once (hb.resolve_right fun h => heq h.2) (hb'.resolve_right fun h => heq h.2)

theorem Apart.take [DecidableEq α] (h : Apart f) (a : α) : Apart (take f a) where
  nodup i := (h.nodup i).erase a
  once hb hb' := h.once (h.mem_take.mp hb).1 (h.mem_take.mp hb').1

theorem Apart.take_head [DecidableEq ι] [DecidableEq α] (h : Apart f) (hi : f i = a :: l) :
    Queues.take f a = Function.update f i l := by
  funext j
  by_cases hj : j = i
  · subst hj
    simp [Queues.take, hi]
  · have ha : a ∉ f j := fun ha => hj (h.once ha (by simp [hi]))
    simp [Queues.take, hj, erase_of_not_mem ha]

end family

end Queues
