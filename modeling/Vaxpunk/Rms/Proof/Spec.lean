/-
  What `validate` accepts: the limits every later step of the loader rests on.
-/
import Vaxpunk.Rms.Load

namespace Rms

open Ods (BLOCK)

variable {s : Spec} {k : KeySpec} {n : ℕ}

/-- Some segments, none empty, and not too much in them. -/
structure KeySpec.Sized (k : KeySpec) : Prop where
  segments : 1 ≤ k.segments.length ∧ k.segments.length ≤ 8
  nonempty : ∀ g ∈ k.segs, 0 < g.2
  size : k.size ≤ 255

theorem KeySpec.Sized.size_pos (h : k.Sized) : 0 < k.size := by
  cases hs : k.segs with
  | nil =>
    have hlen : k.segs.length = k.segments.length := by simp [KeySpec.segs]
    have := h.segments.1
    rw [hs, List.length_nil] at hlen
    omega
  | cons g gs =>
    have := h.nonempty g (by simp [hs])
    rw [KeySpec.size, hs, List.map_cons, List.sum_cons]
    omega

/-- A primary key as `validate` wants it: in a compressed one no segment is over
    another. -/
structure KeySpec.Sound (k : KeySpec) : Prop extends KeySpec.Sized k where
  apart : k.keyCompr ∨ k.recCompr → Spec.Apart (k.segs.insertionSort Spec.pairLe)

/-- Key `n` as `validate` accepts it. -/
structure KeySpec.Valid (s : Spec) (n : ℕ) (k : KeySpec) : Prop extends KeySpec.Sized k where
  record : 0 < s.mrs → k.minRecord ≤ s.mrs.toNat
  type : k.datatype &&& ~~~dtype.DESCENDING = dtype.STRING ∨ 0 < intWidth k.datatype
  integer : 0 < intWidth k.datatype → k.segments.length = 1 ∧ k.size = intWidth k.datatype
  string : 0 < intWidth k.datatype → k.keyCompr = false ∧ k.idxCompr = false ∧ k.recCompr = false
  dataArea : ∃ a, s.areas[k.dataArea.toNat]? = some a
  indexArea : ∃ i l, s.areas[k.indexArea.toNat]? = some i ∧ s.areas[k.level1Area.toNat]? = some l ∧ i.bktsz = l.bktsz
  apart : n = 0 → k.keyCompr ∨ k.recCompr → Spec.Apart (k.segs.insertionSort Spec.pairLe)

theorem KeySpec.Valid.sound (h : k.Valid s 0) : k.Sound := ⟨h.toSized, h.apart rfl⟩

theorem validateKey_valid (h : s.validateKey n k = .ok ()) : k.Valid s n := by
  simp only [Spec.validateKey] at h
  split_ifs at h with h1 h2 h3 h4 h5 h6 h7 h8
  all_goals try cases h
  · obtain ⟨i, -, h⟩ := Trap.bind_ok.1 h
    obtain ⟨l, -, h⟩ := Trap.bind_ok.1 h
    split_ifs at h
    all_goals cases h
  obtain ⟨i, hi, h⟩ := Trap.bind_ok.1 h
  obtain ⟨l, hl, h⟩ := Trap.bind_ok.1 h
  split_ifs at h with heq
  · cases h
  simp only [not_or, List.any_eq_true, decide_eq_true_eq, not_exists, not_and] at h1 h7
  have hnone : ∀ g ∈ k.segs, 0 < g.2 := by
    intro g hg
    obtain ⟨g', hg', rfl⟩ := List.mem_map.1 hg
    exact Nat.pos_of_ne_zero fun h0 => h1.2 g' hg' (UInt8.toNat_inj.1 h0)
  have hdata : k.dataArea.toNat < s.areas.length := Nat.lt_of_not_ge (h7 _ (by simp))
  refine ⟨⟨by omega, hnone, by omega⟩, fun hm => ?_, ?_, fun hw => ?_, fun hw => ?_,
    ⟨_, List.getElem?_eq_getElem hdata⟩,
    ⟨i, l, Trap.at_eq_ok.1 hi, Trap.at_eq_ok.1 hl, not_not.1 heq⟩, fun hn hc => ?_⟩
  · exact Nat.le_of_not_lt fun hlt => h3 ⟨hm, hlt⟩
  · rcases Nat.eq_zero_or_pos (intWidth k.datatype) with h0 | h0
    · exact .inl (not_not.1 fun hne => h4 ⟨hne, h0⟩)
    · exact .inr h0
  · have := not_and.1 h5 hw
    omega
  · have := not_and.1 h6 hw
    simp only [not_or, Bool.not_eq_true] at this
    exact this
  · exact not_not.1 fun hne => h8 ⟨hn, hc, hne⟩

theorem validateKeys_valid : ∀ {ks : List KeySpec} {n i : ℕ}, s.validateKeys n ks = .ok () → ks[i]? = some k →
    k.Valid s (n + i) := by
  intro ks
  induction ks with
  | nil => intro n i _ hk; cases hk
  | cons k' ks ih =>
    intro n i h hk
    obtain ⟨⟨⟩, h1, h2⟩ := Trap.bind_ok.1 h
    cases i with
    | zero =>
      cases hk
      exact validateKey_valid h1
    | succ i =>
      rw [show n + (i + 1) = n + 1 + i by omega]
      exact ih h2 hk

/-- What `validate` accepts. -/
structure Spec.Valid (s : Spec) : Prop where
  rfm : s.rfm = rfmFIX ∨ s.rfm = rfmVAR
  fixed : s.rfm = rfmFIX → s.mrs ≠ 0
  areas : 1 ≤ s.areas.length ∧ s.areas.length ≤ 255
  bktsz : ∀ a ∈ s.areas, 1 ≤ a.bktsz.toNat ∧ a.bktsz.toNat ≤ 63
  keys : 1 ≤ s.keys.length ∧ s.keys.length ≤ 255
  key : ∀ n (k : KeySpec), s.keys[n]? = some k → k.Valid s n

theorem validate_valid (h : s.validate = .ok ()) : s.Valid := by
  simp only [Spec.validate, Spec.bad] at h
  split_ifs at h with h1 h2 h3 h4 h5
  all_goals try cases h
  simp only [not_or, List.any_eq_true, decide_eq_true_eq, not_exists, not_and] at h3 h4 h5
  refine ⟨?_, fun hf hm => h2 ⟨hf, hm⟩, ⟨List.length_pos_of_ne_nil h3.1, by omega⟩, fun a ha => ?_,
    ⟨List.length_pos_of_ne_nil h5.1, by omega⟩, fun n k hk => ?_⟩
  · by_contra hne
    exact h1 (not_or.1 hne)
  · obtain ⟨hlo, hhi⟩ := Classical.not_imp.1 (h4 a ha)
    exact ⟨UInt8.le_iff_toNat_le.1 hlo, UInt8.le_iff_toNat_le.1 (not_not.1 hhi)⟩
  · simpa using validateKeys_valid h hk

end Rms
