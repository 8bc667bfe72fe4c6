/-
  The contents of one image at two places: alike but for the addresses the linker has
  noted, which have moved.
-/
import Vaxpunk.Link.Proof.Layout
import Vaxpunk.Link.Proof.Stored
import Vaxpunk.Obj.Proof.Apply

namespace Link

open Obj (Relocated)
open Words

variable {data : List (List (BitVec 8))} {i j off : ℕ} {bytes : List (BitVec 8)}

/-- The contents `data` and `data'` of the image sections: the same but for what
    `stored` says, whose addresses are those of an image that has moved by `d`. -/
structure Mirrors (d : BitVec 64) (sections : List ImageSection) (stored : List (ℕ × Stored))
    (data data' : List (List (BitVec 8))) : Prop where
  apart : Apart stored
  sized : ∀ (i : ℕ) (s : ImageSection), sections[i]? = some s → ∃ c c' : List (BitVec 8),
    data[i]? = some c ∧ data'[i]? = some c' ∧ c'.length = c.length ∧
    c.length = if s.cls = .zero then 0 else s.stop - s.start
  inside : ∀ e ∈ stored, e.2.stuck = none → ∃ (i : ℕ) (s : ImageSection) (c c' : List (BitVec 8)),
    sections[i]? = some s ∧
    data[i]? = some c ∧ data'[i]? = some c' ∧ s.start ≤ e.1 ∧ e.1 + e.2.size ≤ s.start + c.length ∧
    Relocated d (slice c (e.1 - s.start) e.2.size) (slice c' (e.1 - s.start) e.2.size)
  outside : ∀ (i : ℕ) (s : ImageSection) (b b' : List (BitVec 8)), sections[i]? = some s →
    data[i]? = some b → data'[i]? = some b' →
    ∀ x, ¬ Covered stored (s.start + x) → b[x]? = b'[x]?

/-- The contents with `bytes` at offset `off` of section `i`. -/
def put (data : List (List (BitVec 8))) (i off : ℕ) (bytes : List (BitVec 8)) :
    List (List (BitVec 8)) := data.modify i fun c => splice c off bytes

theorem getElem?_put {c : List (BitVec 8)} (h : (put data i off bytes)[j]? = some c) :
    (j ≠ i ∧ data[j]? = some c) ∨ ∃ c₀, j = i ∧ data[i]? = some c₀ ∧ c = splice c₀ off bytes := by
  rw [put, List.getElem?_modify] at h
  obtain ⟨c₀, hc₀, rfl⟩ := Option.map_eq_some_iff.mp h
  split_ifs with hij
  · subst hij
    exact .inr ⟨c₀, rfl, hc₀, rfl⟩
  · exact .inl ⟨fun h => hij h.symm, hc₀⟩

theorem put_ne (h : j ≠ i) : (put data i off bytes)[j]? = data[j]? := by
  rw [put, List.getElem?_modify]
  simp [Ne.symm h]

theorem put_self {c : List (BitVec 8)} (h : data[i]? = some c) :
    (put data i off bytes)[i]? = some (splice c off bytes) := by
  rw [put, List.getElem?_modify, h]
  simp

section
variable {d : BitVec 64} {sections : List ImageSection} {top : ℕ} {stored stored' : List (ℕ × Stored)}
  {data data' : List (List (BitVec 8))} {i n at_ : ℕ} {s : ImageSection} {bytes bytes' : List (BitVec 8)}

theorem Ordered.eq_or_apart (ho : Ordered sections top) {t : ImageSection}
    (hi : sections[i]? = some s) (hj : sections[j]? = some t) :
    i = j ∨ s.stop ≤ t.start ∨ t.stop ≤ s.start := by
  obtain ⟨hilen, rfl⟩ := List.getElem?_eq_some_iff.mp hi
  obtain ⟨hjlen, rfl⟩ := List.getElem?_eq_some_iff.mp hj
  have hapart := List.pairwise_iff_getElem.mp ho.apart
  rcases Nat.lt_trichotomy i j with hlt | heq | hgt
  · exact .inr (.inl (hapart i j hilen hjlen hlt))
  · exact .inl heq
  · exact .inr (.inr (hapart j i hjlen hilen hgt))

theorem Mirrors.lengths (hm : Mirrors d sections stored data data') (hi : sections[i]? = some s)
    {c c' : List (BitVec 8)} (hc : data[i]? = some c) (hc' : data'[i]? = some c') :
    c'.length = c.length ∧ c.length = if s.cls = .zero then 0 else s.stop - s.start := by
  obtain ⟨z, z', hz, hz', hlen⟩ := hm.sized i s hi
  obtain rfl : z = c := Option.some.inj (hz.symm.trans hc)
  obtain rfl : z' = c' := Option.some.inj (hz'.symm.trans hc')
  exact hlen

/-- The `n` bytes from `at_` on are in section `i`, which has contents. -/
structure Site (sections : List ImageSection) (at_ n i : ℕ) (s : ImageSection) : Prop where
  get : sections[i]? = some s
  full : s.cls ≠ .zero
  low : s.start ≤ at_
  high : at_ + n ≤ s.stop

/-- **Bytes written at the same place in both.**  `stored'` is what is noted then:
    of the addresses, those that were and are not touched, or the bytes
    themselves. -/
theorem Mirrors.put (ho : Ordered sections top) (hm : Mirrors d sections stored data data')
    (hw : Site sections at_ n i s) (hlen : bytes.length = n) (hlen' : bytes'.length = n) (happart : Apart stored')
    (hkeep : ∀ e ∈ stored', e.2.stuck = none →
      (e ∈ stored ∧ (e.1 + e.2.size ≤ at_ ∨ at_ + n ≤ e.1)) ∨
      (e.1 = at_ ∧ e.2.size = n ∧ Relocated d bytes bytes'))
    (hcov : ∀ x, ¬ Covered stored' x → if at_ ≤ x ∧ x < at_ + n then bytes' = bytes else ¬ Covered stored x) :
    Mirrors d sections stored' (Link.put data i (at_ - s.start) bytes)
      (Link.put data' i (at_ - s.start) bytes') := by
  obtain ⟨hi, hfull, hlow, hhigh⟩ := hw
  obtain ⟨c, c', hc, hc', hcc', hsize⟩ := hm.sized i s hi
  rw [if_neg hfull] at hsize
  have hforward := ho.forward s (List.mem_of_getElem? hi)
  have hin : at_ - s.start + bytes.length ≤ c.length := by omega
  have hin' : at_ - s.start + bytes'.length ≤ c'.length := by omega
  refine ⟨happart, fun j t hj => ?_, fun e he hstuck => ?_, fun j t x x' hj hx hx' y hy => ?_⟩
  · by_cases hji : j = i
    · subst hji
      obtain rfl : t = s := Option.some.inj (hj.symm.trans hi)
      exact ⟨_, _, put_self hc, put_self hc', by rw [length_splice hin, length_splice hin', hcc'],
        by rw [length_splice hin, hsize, if_neg hfull]⟩
    · rw [put_ne hji, put_ne hji]
      exact hm.sized j t hj
  · rcases hkeep e he hstuck with ⟨hold, hfar⟩ | ⟨heat, hesize, hr⟩
    · obtain ⟨j, t, x, x', hj, hx, hx', hlo, hhi, hr⟩ := hm.inside e hold hstuck
      by_cases hji : j = i
      · subst hji
        obtain rfl : t = s := Option.some.inj (hj.symm.trans hi)
        obtain rfl : x = c := Option.some.inj (hx.symm.trans hc)
        obtain rfl : x' = c' := Option.some.inj (hx'.symm.trans hc')
        refine ⟨j, t, _, _, hj, put_self hx, put_self hx', hlo, ?_, ?_⟩
        · rw [length_splice hin]
          exact hhi
        · rw [slice_splice_apart hin (by omega), slice_splice_apart hin' (by omega)]
          exact hr
      · refine ⟨j, t, x, x', hj, ?_, ?_, hlo, hhi, hr⟩
        · rw [put_ne hji, hx]
        · rw [put_ne hji, hx']
    · refine ⟨i, s, _, _, hi, put_self hc, put_self hc', by omega, ?_, ?_⟩
      · rw [length_splice hin]
        omega
      · have hs := slice_splice hin
        have hs' := slice_splice hin'
        rw [hlen] at hs
        rw [hlen'] at hs'
        rw [heat, hesize, hs, hs']
        exact hr
  · have hy' := hcov _ hy
    rcases getElem?_put hx with ⟨hji, hx⟩ | ⟨x₀, rfl, hx₀, rfl⟩
    · rw [put_ne hji] at hx'
      obtain ⟨hxx', hxlen⟩ := hm.lengths hj hx hx'
      -- the bytes are not in this section
      by_cases hylen : y < x.length
      · rw [if_neg] at hy'
        · exact hm.outside j t x x' hj hx hx' y hy'
        · rintro ⟨hge, hlt⟩
          have hapart := (ho.eq_or_apart hj hi).resolve_left hji
          split_ifs at hxlen <;> omega
      · rw [List.getElem?_eq_none (by omega), List.getElem?_eq_none (by omega)]
    · obtain rfl : t = s := Option.some.inj (hj.symm.trans hi)
      obtain rfl : x₀ = c := Option.some.inj (hx₀.symm.trans hc)
      rw [put_self hc'] at hx'
      obtain rfl := Option.some.inj hx'
      by_cases hyin : at_ ≤ t.start + y ∧ t.start + y < at_ + n
      · rw [if_pos hyin] at hy'
        obtain ⟨k, rfl⟩ := Nat.exists_eq_add_of_le (show at_ - t.start ≤ y by omega)
        rw [getElem?_splice_inside hin (by omega), getElem?_splice_inside hin' (by omega), hy']
      · rw [if_neg hyin] at hy'
        rw [getElem?_splice_apart hin (by omega), getElem?_splice_apart hin' (by omega)]
        exact hm.outside j t x₀ c' hj hx₀ hc' y hy'

/-- No entry is in the way of the `n` bytes at `at_`. -/
def Clear (m : List (ℕ × Stored)) (at_ n : ℕ) : Prop :=
  ∀ e ∈ m, e.1 + e.2.size ≤ at_ ∨ at_ + n ≤ e.1

instance (m : List (ℕ × Stored)) (at_ n : ℕ) : Decidable (Clear m at_ n) :=
  inferInstanceAs (Decidable (∀ e ∈ m, _))

/-- `m` is `stored` with nothing in the way of the `n` bytes at `at_`: its addresses
    are some of those in `stored`, and no byte apart is lost. -/
structure Cleared (stored : List (ℕ × Stored)) (at_ n : ℕ) (m : List (ℕ × Stored)) : Prop where
  apart : Apart m
  clear : Clear m at_ n
  keep : ∀ e ∈ m, e.2.stuck = none → e ∈ stored
  covers : ∀ x, (x < at_ ∨ at_ + n ≤ x) → Covered stored x → Covered m x

theorem Cleared.over (h : Apart stored) (at_ n : ℕ) :
    Cleared stored at_ n ((hits at_ (at_ + n) stored).foldl (cut at_ (at_ + n)) stored) := by
  obtain ⟨hap, hcov, hmem⟩ := h.over (Nat.le_add_right at_ n)
  exact ⟨hap, fun e he => (hmem e he).1, fun e he => (hmem e he).2, hcov⟩

theorem Cleared.self (h : Apart stored) (hclear : Clear stored at_ n) : Cleared stored at_ n stored :=
  ⟨h, hclear, fun _ he _ => he, fun _ _ hx => hx⟩

theorem Mirrors.putSame (ho : Ordered sections top) (hm : Mirrors d sections stored data data')
    (hw : Site sections at_ bytes.length i s) (hcl : Cleared stored at_ bytes.length stored') :
    Mirrors d sections stored' (Link.put data i (at_ - s.start) bytes)
      (Link.put data' i (at_ - s.start) bytes) := by
  refine hm.put ho hw rfl rfl hcl.apart (fun e he hstuck => ?_) fun x hx => ?_
  · exact .inl ⟨hcl.keep e he hstuck, hcl.clear e he⟩
  · split_ifs with hin
    · rfl
    · exact fun hc => hx (hcl.covers x (by omega) hc)

theorem Mirrors.putNoted (ho : Ordered sections top) (hm : Mirrors d sections stored data data')
    (hw : Site sections at_ bytes.length i s) (hpos : 0 < bytes.length)
    (hlen : bytes'.length = bytes.length) (hcl : Cleared stored at_ bytes.length stored')
    {new : Stored} (hsize : new.size = bytes.length) (hnew : new.stuck = none → Relocated d bytes bytes') :
    Mirrors d sections (SortedMap.insert at_ new stored') (Link.put data i (at_ - s.start) bytes)
      (Link.put data' i (at_ - s.start) bytes') := by
  have hsorted := hcl.apart.sorted
  have hmem {e : ℕ × Stored} : e ∈ SortedMap.insert at_ new stored' ↔ _ :=
    SortedMap.mem_insert hsorted
  have hfree : ∀ e ∈ stored', e.1 + e.2.size ≤ at_ ∨ at_ + new.size ≤ e.1 := by
    rw [hsize]
    exact hcl.clear
  refine hm.put ho hw rfl hlen (hcl.apart.insert (by omega) hfree)
    (fun e he hstuck => ?_) fun x hx => ?_
  · rcases hmem.mp he with rfl | ⟨he, -⟩
    · exact .inr ⟨rfl, hsize, hnew hstuck⟩
    · exact .inl ⟨hcl.keep e he hstuck, hcl.clear e he⟩
  · rw [if_neg]
    · intro hc
      by_cases hin : at_ ≤ x ∧ x < at_ + bytes.length
      · exact hx ⟨_, hmem.mpr (.inl rfl), hin.1, by simp only [hsize]; exact hin.2⟩
      · obtain ⟨e, he, hlo, hhi⟩ := hcl.covers x (by omega) hc
        have hne : e.1 ≠ at_ := by
          have := hcl.clear e he
          have := hcl.apart.pos e he
          omega
        exact hx ⟨e, hmem.mpr (.inr ⟨he, hne⟩), hlo, hhi⟩
    · rintro ⟨hge, hlt⟩
      exact hx ⟨_, hmem.mpr (.inl rfl), hge, by simp only [hsize]; exact hlt⟩

end

end Link
