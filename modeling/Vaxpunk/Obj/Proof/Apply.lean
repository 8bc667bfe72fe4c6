/-
  What moving an image does to its contents: the fields the fixups name get the bytes
  they have in the image where it goes, and nothing else changes.
-/
import Vaxpunk.Obj.Image

namespace Obj

open Words List BitVec

variable {d : BitVec 64} {at_ : ℕ}

/-- The bytes `new` are the address `old` in an image that has moved by `d`. -/
inductive Relocated (d : BitVec 64) (old : List (BitVec 8)) : List (BitVec 8) → Prop
  | quad (hlen : old.length = 8) : Relocated d old (le 8 (ofLe old + d.toNat))
  | long (hlen : old.length = 4)
    (hlow : -2 ^ 31 ≤ (BitVec.ofNat 32 (ofLe old)).toInt + d.toInt)
    (hhigh : (BitVec.ofNat 32 (ofLe old)).toInt + d.toInt < 2 ^ 31) :
    Relocated d old (le 4 (BitVec.ofInt 32 ((BitVec.ofNat 32 (ofLe old)).toInt + d.toInt)).toNat)

theorem Relocated.size {old new : List (BitVec 8)} (h : Relocated d old new) :
    old.length = 8 ∨ old.length = 4 := by
  cases h with
  | quad hlen => exact .inl hlen
  | long hlen => exact .inr hlen

theorem relocated_quad (v : BitVec 64) : Relocated d (le 8 v.toNat) (le 8 (v + d).toNat) := by
  have heq : le 8 (v + d).toNat = le 8 (ofLe (le 8 v.toNat) + d.toNat) := by
    refine le_congr ?_
    rw [ofLe_le, toNat_add]
    omega
  rw [heq]
  exact .quad (length_le _ _)

theorem relocated_long {v : BitVec 64} (hv : -2 ^ 31 ≤ v.toInt ∧ v.toInt < 2 ^ 31)
    (hv' : -2 ^ 31 ≤ (v + d).toInt ∧ (v + d).toInt < 2 ^ 31) :
    Relocated d (le 4 v.toNat) (le 4 (v + d).toNat) := by
  have hlong : (BitVec.ofNat 32 (ofLe (le 4 v.toNat))).toInt = v.toInt := by
    rw [ofLe_le, toInt_eq_toNat_cond, toNat_ofNat]
    rw [toInt_eq_toNat_cond] at hv ⊢
    omega
  have hsum : v.toInt + d.toInt = (v + d).toInt := by
    rw [toInt_eq_toNat_cond] at hv hv' ⊢
    rw [toInt_eq_toNat_cond, toInt_eq_toNat_cond]
    rw [toNat_add] at hv' ⊢
    omega
  have heq : le 4 (v + d).toNat = le 4 (BitVec.ofInt 32 (v + d).toInt).toNat := by
    refine le_congr ?_
    rw [toNat_ofInt]
    rw [toInt_eq_toNat_cond]
    omega
  rw [heq, ← hsum, ← hlong]
  refine .long (length_le _ _) ?_ ?_ <;> rw [hlong, hsum]
  · exact hv'.1
  · exact hv'.2

theorem applyAt_inside {size i : ℕ} {data new : List (BitVec 8)} (hi : i + size ≤ data.length)
    (hr : Relocated d (slice data i size) new) :
    applyAt d size at_ (at_ + i) data = .ok (splice data i new) := by
  have hlen : (slice data i size).length = size := length_slice hi
  have hin : ¬ (at_ + i < at_ ∨ data.length ≤ at_ + i - at_) := by
    rintro (h | h)
    · omega
    · cases hr <;> omega
  unfold applyAt
  rw [if_neg hin, Nat.add_sub_cancel_left]
  simp only
  change (if (slice data i size).length < size then _ else _) = _
  rw [if_neg (by omega)]
  cases hr with
  | quad h8 =>
    rw [if_pos (by omega)]
    rfl
  | long h4 hlow hhigh =>
    rw [if_neg (by omega)]
    exact if_pos ⟨hlow, hhigh⟩

theorem applyAt_outside {size off : ℕ} {data : List (BitVec 8)}
    (h : off < at_ ∨ at_ + data.length ≤ off) : applyAt d size at_ off data = .ok data := by
  unfold applyAt
  rw [if_pos (by omega)]

/-- A field at offset `e.1` is in the contents `data` or apart from them; if it is
    in them, `data'` has it as the image where it goes. -/
def Names (d : BitVec 64) (at_ : ℕ) (data data' : List (BitVec 8)) (e : ℕ × ℕ) : Prop :=
  (e.1 + e.2 ≤ at_ ∧ e.1 < at_ ∨ at_ + data.length ≤ e.1) ∨
  ∃ i, e.1 = at_ + i ∧ i + e.2 ≤ data.length ∧
    Relocated d (slice data i e.2) (slice data' i e.2)

/-- **Fixups**, each of a field apart from the others, that name all bytes in which
    `data` and `data'` differ, make `data'` of `data`. -/
theorem foldlM_applyAt {es : List (ℕ × ℕ)} {data data' : List (BitVec 8)}
    (hlen : data'.length = data.length) (hes : ∀ e ∈ es, Names d at_ data data' e)
    (happart : es.Pairwise fun e f => e.1 + e.2 ≤ f.1 ∨ f.1 + f.2 ≤ e.1)
    (hsame : ∀ j, (∀ e ∈ es, at_ + j < e.1 ∨ e.1 + e.2 ≤ at_ + j) → data[j]? = data'[j]?) :
    es.foldlM (fun data e => applyAt d e.2 at_ e.1 data) data = .ok data' := by
  induction es generalizing data with
  | nil =>
    have : data = data' := ext_getElem? fun j => hsame j (by simp)
    rw [this]
    rfl
  | cons e es ih =>
    obtain ⟨he, hes⟩ := forall_mem_cons.mp hes
    obtain ⟨hfirst, happart⟩ := pairwise_cons.mp happart
    rw [foldlM_cons]
    rcases he with hout | ⟨i, hoff, hi, hr⟩
    · rw [applyAt_outside (by omega)]
      refine ih hlen hes happart fun j hj => ?_
      by_cases hjlen : j < data.length
      · exact hsame j (forall_mem_cons.mpr ⟨by omega, hj⟩)
      · rw [List.getElem?_eq_none (by omega), List.getElem?_eq_none (by omega)]
    · have hnew : (slice data' i e.2).length = e.2 := length_slice (by omega)
      have hin : i + (slice data' i e.2).length ≤ data.length := by omega
      rw [hoff, applyAt_inside hi hr]
      change es.foldlM _ (splice data i (slice data' i e.2)) = _
      refine ih (by rw [length_splice hin, hlen]) (fun f hf => ?_) happart fun j hj => ?_
      · -- the other fields are as they were
        have hef := hfirst f hf
        rcases hes f hf with hout | ⟨k, hfoff, hk, hrf⟩
        · exact .inl (by rw [length_splice hin]; exact hout)
        · refine .inr ⟨k, hfoff, by rw [length_splice hin]; exact hk, ?_⟩
          rw [slice_splice_apart hin (by omega)]
          exact hrf
      · by_cases hji : i ≤ j ∧ j < i + e.2
        · obtain ⟨k, rfl⟩ := Nat.exists_eq_add_of_le hji.1
          rw [getElem?_splice_inside hin (by omega), getElem?_slice (by omega)]
        · rw [getElem?_splice_apart hin (by omega)]
          exact hsame j (forall_mem_cons.mpr ⟨by omega, hj⟩)

/-- Where the fields are that the fixups name, and their sizes. -/
def Fixups.fields (f : Fixups) : List (ℕ × ℕ) :=
  f.quad.map (fun off => (off.toNat, 8)) ++ f.long.map fun off => (off.toNat, 4)

/-- **Moving contents**: the quadwords and longwords the fixups name. -/
theorem Fixups.apply_eq {f : Fixups} {data data' : List (BitVec 8)}
    (hlen : data'.length = data.length) (hes : ∀ e ∈ f.fields, Names d at_ data data' e)
    (happart : f.fields.Pairwise fun e f => e.1 + e.2 ≤ f.1 ∨ f.1 + f.2 ≤ e.1)
    (hsame : ∀ j, (∀ e ∈ f.fields, at_ + j < e.1 ∨ e.1 + e.2 ≤ at_ + j) → data[j]? = data'[j]?) :
    f.apply d at_ data = .ok data' := by
  have hfold := foldlM_applyAt hlen hes happart hsame
  rw [Fixups.fields, foldlM_append, foldlM_map] at hfold
  simp only [foldlM_map] at hfold
  exact hfold

end Obj
