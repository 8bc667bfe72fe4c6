/-
  Packing: things put one after the other into groups of bounded size, a new group
  begun when the next thing does not fit.
-/
import Mathlib

namespace Pack

open List

variable {α β : Type}

/-- The groups after `cur`, which takes `used` so far. -/
def packFrom (size : α → ℕ) (cap : ℕ) (cur : List α) (used : ℕ) : List α → List (List α)
  | [] => [cur]
  | a :: as =>
    if used + size a > cap then cur :: packFrom size cap [a] (size a) as
    else packFrom size cap (cur ++ [a]) (used + size a) as

def pack (size : α → ℕ) (cap : ℕ) : List α → List (List α)
  | [] => []
  | a :: as => packFrom size cap [a] (size a) as

variable {size : α → ℕ} {cap : ℕ}

theorem packFrom_ne_nil : ∀ (as cur : List α) (used : ℕ), packFrom size cap cur used as ≠ []
  | [], _, _ => by simp [packFrom]
  | a :: as, cur, used => by
    unfold packFrom
    split_ifs
    · simp
    · exact packFrom_ne_nil as _ _

theorem flatten_packFrom : ∀ {as cur : List α} {used : ℕ},
    (packFrom size cap cur used as).flatten = cur ++ as
  | [], cur, used => by simp [packFrom]
  | a :: as, cur, used => by
    unfold packFrom
    split_ifs
    · rw [flatten_cons, flatten_packFrom]
      simp
    · rw [flatten_packFrom]
      simp

theorem flatten_pack (as : List α) : (pack size cap as).flatten = as := by
  cases as with
  | nil => rfl
  | cons a as => exact flatten_packFrom

theorem packFrom_bounds : ∀ {as cur : List α} {used : ℕ}, (∀ a ∈ as, size a ≤ cap) → cur ≠ [] →
    used = (cur.map size).sum → used ≤ cap →
    ∀ g ∈ packFrom size cap cur used as, g ≠ [] ∧ (g.map size).sum ≤ cap
  | [], cur, used, _, hc, hu, hle => by
    simp only [packFrom, mem_singleton, forall_eq]
    exact ⟨hc, hu ▸ hle⟩
  | a :: as, cur, used, hsize, hc, hu, hle => by
    obtain ⟨ha, has⟩ := forall_mem_cons.1 hsize
    unfold packFrom
    split_ifs with h
    · exact forall_mem_cons.2 ⟨⟨hc, hu ▸ hle⟩, packFrom_bounds has (by simp) (by simp) ha⟩
    · exact packFrom_bounds has (by simp) (by simp [hu]) (by omega)

theorem pack_bounds {as g : List α} (hsize : ∀ a ∈ as, size a ≤ cap) (hg : g ∈ pack size cap as) :
    g ≠ [] ∧ (g.map size).sum ≤ cap := by
  cases as with
  | nil => cases hg
  | cons a as =>
    obtain ⟨ha, has⟩ := forall_mem_cons.1 hsize
    exact packFrom_bounds has (by simp) (by simp) ha g hg

theorem sum_le_mul {most : ℕ} {as : List α} (hmost : ∀ a ∈ as, size a ≤ most) :
    (as.map size).sum ≤ as.length * most := by
  induction as with
  | nil => simp
  | cons a as ih =>
    obtain ⟨ha, has⟩ := forall_mem_cons.1 hmost
    have := ih has
    simp only [map_cons, sum_cons, length_cons, Nat.succ_mul]
    omega

theorem length_packFrom {most few : ℕ} (hfew : few * most ≤ cap) :
    ∀ (as cur : List α) (used : ℕ), (∀ a ∈ cur, size a ≤ most) → (∀ a ∈ as, size a ≤ most) → cur ≠ [] →
      used = (cur.map size).sum →
      ((packFrom size cap cur used as).length - 1) * few + 1 ≤ cur.length + as.length
  | [], cur, used, _, _, hc, _ => by
    have := length_pos_iff.2 hc
    simp [packFrom]
    omega
  | a :: as, cur, used, hcur, hmost, hc, hu => by
    obtain ⟨ha, has⟩ := forall_mem_cons.1 hmost
    unfold packFrom
    split_ifs with h
    · -- a group is closed when one more does not fit, so it holds `few` at least
      have hlen : few ≤ cur.length := by
        by_contra hlt
        have h1 := sum_le_mul hcur
        have h3 : (cur.length + 1) * most ≤ few * most := Nat.mul_le_mul_right _ (by omega)
        rw [Nat.succ_mul] at h3
        omega
      have ih := length_packFrom hfew as [a] (size a) (by simpa using ha) has (by simp) (by simp)
      have hpos : 0 < (packFrom size cap [a] (size a) as).length :=
        length_pos_iff.2 (packFrom_ne_nil as [a] (size a))
      obtain ⟨n, hn⟩ : ∃ n, (packFrom size cap [a] (size a) as).length = n + 1 := ⟨_, (Nat.sub_add_cancel hpos).symm⟩
      rw [hn] at ih
      simp only [length_cons, hn, Nat.add_sub_cancel, length_nil, Nat.succ_mul] at ih ⊢
      omega
    · have hcur' : ∀ x ∈ cur ++ [a], size x ≤ most :=
        forall_mem_append.2 ⟨hcur, by simpa using ha⟩
      have ih := length_packFrom hfew as (cur ++ [a]) (used + size a) hcur' has (by simp) (by simp [hu])
      simp only [length_append, length_cons, length_nil] at ih ⊢
      omega

theorem length_pack {as : List α} (most few : ℕ) (hmost : ∀ a ∈ as, size a ≤ most)
    (hfew : few * most ≤ cap) (hne : as ≠ []) : ((pack size cap as).length - 1) * few + 1 ≤ as.length := by
  cases as with
  | nil => exact absurd rfl hne
  | cons a as =>
    obtain ⟨ha, has⟩ := forall_mem_cons.1 hmost
    have := length_packFrom hfew as [a] (size a) (by simpa using ha) has (by simp) (by simp)
    simpa [pack, Nat.add_comm] using this

theorem packFrom_map {f : β → α} : ∀ (as cur : List β) (used : ℕ),
    packFrom size cap (cur.map f) used (as.map f) =
      (packFrom (size ∘ f) cap cur used as).map (List.map f)
  | [], cur, used => by simp [packFrom]
  | a :: as, cur, used => by
    simp only [map_cons, packFrom, Function.comp_apply]
    split_ifs
    · rw [map_cons, ← packFrom_map]
      rfl
    · rw [← packFrom_map]
      simp

theorem pack_map (f : β → α) (as : List β) :
    pack size cap (as.map f) = (pack (size ∘ f) cap as).map (List.map f) := by
  cases as with
  | nil => rfl
  | cons a as => exact packFrom_map as [a] _

end Pack
