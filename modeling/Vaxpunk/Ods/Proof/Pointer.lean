/-
  Retrieval pointers: decoding what was encoded, and how long it is.
-/
import Vaxpunk.Ods.Layout.Header

namespace Ods

open List Nat

variable {w lo count lbn : ℕ} {ws : List ℕ} {ps : List Pointer}

theorem decodeWords_one (h : w >>> 14 = 1) : decodeWords (w :: lo :: ws) =
    (decodeWords ws).map (.extent 1 (w % 0x100 + 1) ((w >>> 8 % 0x40) <<< 16 + lo) :: ·) := by
  conv_lhs => unfold decodeWords
  rw [h]; rfl

theorem decodeWords_two {hi : ℕ} (h : w >>> 14 = 2) :
    decodeWords (w :: lo :: hi :: ws) =
      (decodeWords ws).map (.extent 2 (w % 0x4000 + 1) (lo + hi <<< 16) :: ·) := by
  conv_lhs => unfold decodeWords
  rw [h]; rfl

theorem decodeWords_three {clo hi : ℕ} (h : w >>> 14 = 3) :
    decodeWords (w :: clo :: lo :: hi :: ws) =
      (decodeWords ws).map (.extent 3 ((w % 0x4000) <<< 16 + clo + 1) (lo + hi <<< 16) :: ·) := by
  conv_lhs => unfold decodeWords
  rw [h]; rfl

variable {p : Pointer}

namespace Pointer

/-- A pointer its format can hold. -/
def Fits : Pointer → Prop
  | placement w => w < 2 ^ 14
  | extent 1 count lbn => 1 ≤ count ∧ count ≤ 0x100 ∧ lbn < 2 ^ 22
  | extent 2 count lbn => 1 ≤ count ∧ count ≤ 0x4000 ∧ lbn < 2 ^ 32
  | extent 3 count lbn => 1 ≤ count ∧ count ≤ 0x40000000 ∧ lbn < 2 ^ 32
  | extent _ _ _ => False

variable {format : ℕ}

theorem Fits.cases (h : (extent format count lbn).Fits) : 1 ≤ count ∧
    (format = 1 ∧ count ≤ 0x100 ∧ lbn < 2 ^ 22 ∨ format = 2 ∧ count ≤ 0x4000 ∧ lbn < 2 ^ 32 ∨
      format = 3 ∧ count ≤ 0x40000000 ∧ lbn < 2 ^ 32) := by
  unfold Fits at h
  split at h
  case h_1 heq => cases heq
  case h_2 heq => cases heq; exact ⟨h.1, .inl ⟨rfl, h.2⟩⟩
  case h_3 heq => cases heq; exact ⟨h.1, .inr (.inl ⟨rfl, h.2⟩)⟩
  case h_4 heq => cases heq; exact ⟨h.1, .inr (.inr ⟨rfl, h.2⟩)⟩
  case h_5 => exact h.elim

theorem Fits.bounds (h : (extent format count lbn).Fits) : 1 ≤ count ∧ count ≤ 0x40000000 ∧ lbn < 2 ^ 32 := by
  have := h.cases
  omega

theorem fits_extent? (h : extent? count lbn = some p) (hl : lbn < 2 ^ 32) :
    p.Fits ∧ ∃ format, p = extent format count lbn := by
  simp only [extent?] at h
  split_ifs at h with h1 h2 h3 <;> obtain rfl := Option.some.inj h
  · exact ⟨⟨h1.1, h1.2.1, h1.2.2⟩, 1, rfl⟩
  · exact ⟨⟨h2.1, h2.2, hl⟩, 2, rfl⟩
  · exact ⟨⟨h3.1, h3.2, hl⟩, 3, rfl⟩

theorem extent?_isSome (h1 : 1 ≤ count) (h2 : count ≤ 0x40000000) :
    ∃ p, extent? count lbn = some p := by
  unfold extent?
  split_ifs <;> first | exact ⟨_, rfl⟩ | omega

theorem Fits.words_lt : ∀ {p : Pointer}, p.Fits → ∀ w ∈ p.words, w < 2 ^ 16
  | placement w, h => by
    simp only [Fits] at h
    simp only [words, mem_singleton, forall_eq]
    omega
  | extent 1 c l, h => by
    simp only [Fits] at h
    simp only [words, forall_mem_cons, shiftRight_eq_div_pow, shiftLeft_eq]
    refine ⟨by omega, by omega, fun _ hw => by simp at hw⟩
  | extent 2 c l, h => by
    simp only [Fits] at h
    simp only [words, forall_mem_cons, shiftRight_eq_div_pow]
    refine ⟨by omega, by omega, by omega, fun _ hw => by simp at hw⟩
  | extent 3 c l, h => by
    simp only [Fits] at h
    simp only [words, forall_mem_cons, shiftRight_eq_div_pow]
    refine ⟨by omega, by omega, by omega, by omega, fun _ hw => by simp at hw⟩
  | extent 0 _ _, h => h.elim
  | extent (_ + 4) _ _, h => h.elim

theorem Fits.length_words : ∀ {p : Pointer}, p.Fits → 2 * p.words.length = p.size
  | placement _, _ => rfl
  | extent 1 _ _, _ => rfl
  | extent 2 _ _, _ => rfl
  | extent 3 _ _, _ => rfl
  | extent 0 _ _, h => h.elim
  | extent (_ + 4) _ _, h => h.elim

theorem Fits.decodeWords : ∀ {p : Pointer}, p.Fits →
    decodeWords (p.words ++ ws) = (decodeWords ws).map (p :: ·)
  | placement w, h => by
    have h0 : w >>> 14 = 0 := by simp only [Fits] at h; rw [shiftRight_eq_div_pow]; omega
    simp [words, Ods.decodeWords, h0]
  | extent 1 c l, h => by
    obtain ⟨h1, h2, h3⟩ := h
    generalize hw : 0x4000 + (l >>> 16 % 0x40) <<< 8 + (c - 1) % 0x100 = w
    simp only [shiftRight_eq_div_pow, shiftLeft_eq] at hw
    have h0 : w >>> 14 = 1 := by rw [shiftRight_eq_div_pow]; omega
    have hc : w % 0x100 + 1 = c := by omega
    have hl : (w >>> 8 % 0x40) <<< 16 + l % 2 ^ 16 = l := by
      rw [shiftRight_eq_div_pow, shiftLeft_eq]; omega
    simp only [words, shiftRight_eq_div_pow, shiftLeft_eq, hw, cons_append,
      nil_append]
    rw [decodeWords_one h0, hc, hl]
  | extent 2 c l, h => by
    obtain ⟨h1, h2, h3⟩ := h
    generalize hw : 0x8000 + (c - 1) % 0x4000 = w
    have h0 : w >>> 14 = 2 := by rw [shiftRight_eq_div_pow]; omega
    have hc : w % 0x4000 + 1 = c := by omega
    have hl : l % 2 ^ 16 + (l >>> 16 % 2 ^ 16) <<< 16 = l := by
      rw [shiftRight_eq_div_pow, shiftLeft_eq]; omega
    simp only [words, hw, cons_append, nil_append]
    rw [decodeWords_two h0, hc, hl]
  | extent 3 c l, h => by
    obtain ⟨h1, h2, h3⟩ := h
    generalize hw : 0xc000 + (c - 1) >>> 16 % 0x4000 = w
    rw [shiftRight_eq_div_pow] at hw
    have h0 : w >>> 14 = 3 := by rw [shiftRight_eq_div_pow]; omega
    have hc : (w % 0x4000) <<< 16 + (c - 1) % 2 ^ 16 + 1 = c := by rw [shiftLeft_eq]; omega
    have hl : l % 2 ^ 16 + (l >>> 16 % 2 ^ 16) <<< 16 = l := by
      rw [shiftRight_eq_div_pow, shiftLeft_eq]; omega
    rw [← shiftRight_eq_div_pow] at hw
    simp only [words, hw, cons_append, nil_append]
    rw [decodeWords_three h0, hc, hl]
  | extent 0 _ _, h => h.elim
  | extent (_ + 4) _ _, h => h.elim

end Pointer

/-! ## Maps -/

theorem leWords_flatMap : ∀ {ws : List ℕ}, (∀ w ∈ ws, w < 2 ^ 16) → leWords (ws.flatMap leWord) = ws
  | [], _ => rfl
  | w :: ws, h => by
    have hw := h w (by simp)
    have hlo : (UInt8.ofNat (w % 2 ^ 8)).toNat = w % 2 ^ 8 := by simp
    have hhi : (UInt8.ofNat (w >>> 8)).toNat = w >>> 8 := by
      rw [UInt8.toNat_ofNat', mod_eq_of_lt]
      rw [shiftRight_eq_div_pow]; omega
    simp only [flatMap_cons, leWord, cons_append, nil_append, leWords, hlo, hhi]
    rw [leWords_flatMap fun w' hw' => h w' (by simp [hw'])]
    rw [shiftRight_eq_div_pow, shiftLeft_eq]
    congr 1; omega

theorem leWords_lt : ∀ (bs : List UInt8), ∀ w ∈ leWords bs, w < 2 ^ 16
  | [], _, h => by simp [leWords] at h
  | [_], _, h => by simp [leWords] at h
  | a :: b :: cs, w, h => by
    simp only [leWords, mem_cons] at h
    rcases h with rfl | h
    · have := a.toNat_lt; have := b.toNat_lt
      rw [shiftLeft_eq]; omega
    · exact leWords_lt cs w h

theorem flatMap_leWords : ∀ {m : List UInt8}, Even m.length → (leWords m).flatMap leWord = m
  | [], _ => rfl
  | [_], h => by simp at h
  | a :: b :: m, h => by
    have hm : Even m.length := by simpa [even_add_one] using h
    have ha := a.toNat_lt
    have hlo : (a.toNat + b.toNat <<< 8) % 2 ^ 8 = a.toNat := by rw [shiftLeft_eq]; omega
    have hhi : (a.toNat + b.toNat <<< 8) >>> 8 = b.toNat := by
      rw [shiftLeft_eq, shiftRight_eq_div_pow]; omega
    simp only [leWords, flatMap_cons, flatMap_leWords hm, leWord, hlo, hhi, UInt8.ofNat_toNat, cons_append, nil_append]

theorem length_leWords : ∀ (bs : List UInt8), 2 * (leWords bs).length ≤ bs.length
  | [] => by simp [leWords]
  | [_] => by simp [leWords]
  | _ :: _ :: cs => by
    have := length_leWords cs
    simp only [leWords, length_cons]; omega

theorem length_flatMap_leWord (ws : List ℕ) : (ws.flatMap leWord).length = 2 * ws.length := by
  induction ws with
  | nil => rfl
  | cons w ws ih =>
    simp only [flatMap_cons, length_append, ih, leWord, length_cons, length_nil]
    omega

theorem encodeMap_eq (ptrs : List Pointer) :
    encodeMap ptrs = (ptrs.flatMap Pointer.words).flatMap leWord := by
  simp only [encodeMap, flatMap_assoc]

theorem map_cons_ok {r : Except String (List Pointer)} (h : r.map (p :: ·) = .ok ps) :
    ∃ qs, r = .ok qs ∧ ps = p :: qs := by
  cases r with
  | error e => cases h
  | ok qs => exact ⟨qs, rfl, by cases h; rfl⟩

theorem decodeWords_cons (h : decodeWords (w :: ws) = .ok ps) (hlt : ∀ x ∈ w :: ws, x < 2 ^ 16) :
    ∃ p qs rest, ps = p :: qs ∧ decodeWords rest = .ok qs ∧ p.Fits ∧ w :: ws = p.words ++ rest := by
  have decoded {p : Pointer} {rest : List ℕ} (h : (decodeWords rest).map (p :: ·) = .ok ps)
      (hp : p.Fits ∧ w :: ws = p.words ++ rest) : ∃ p qs rest, ps = p :: qs ∧
        decodeWords rest = .ok qs ∧ p.Fits ∧ w :: ws = p.words ++ rest := by
    obtain ⟨qs, hq, rfl⟩ := map_cons_ok h
    exact ⟨p, qs, rest, rfl, hq, hp⟩
  unfold decodeWords at h
  simp only [forall_mem_cons] at hlt
  split at h
  case h_1 h0 =>
    rw [shiftRight_eq_div_pow] at h0
    refine decoded h ⟨?_, rfl⟩
    simp only [Pointer.Fits]
    omega
  case h_4 | h_5 | h_7 => cases h
  all_goals
    refine decoded h ?_
    simp only [forall_mem_cons] at hlt
    simp only [imp_false, shiftRight_eq_div_pow] at *
    simp only [Pointer.Fits, Pointer.words, shiftLeft_eq, cons_append, nil_append, cons.injEq, and_true]
    omega

theorem decodeWords_words : ∀ {ws : List ℕ}, decodeWords ws = .ok ps → (∀ w ∈ ws, w < 2 ^ 16) →
    (∀ p ∈ ps, p.Fits) ∧ ps.flatMap Pointer.words = ws := by
  induction ps with
  | nil =>
    intro ws h hlt
    cases ws with
    | nil => simp
    | cons w ws =>
      obtain ⟨_, _, _, heq, -⟩ := decodeWords_cons h hlt
      cases heq
  | cons p ps ih =>
    intro ws h hlt
    cases ws with
    | nil =>
      rw [decodeWords] at h
      cases h
    | cons w ws =>
      obtain ⟨_, _, rest, heq, hq, hfits, hws⟩ := decodeWords_cons h hlt
      obtain ⟨rfl, rfl⟩ := cons.inj heq
      obtain ⟨hall, hrest⟩ := ih hq fun x hx => hlt x (hws ▸ mem_append_right _ hx)
      exact ⟨forall_mem_cons.2 ⟨hfits, hall⟩, by rw [flatMap_cons, hrest, hws]⟩

variable {m : List UInt8}

theorem fits_decodeMap (h : decodeMap m = .ok ps) : ∀ p ∈ ps, p.Fits := (decodeWords_words h (leWords_lt m)).1

variable {ptrs : List Pointer}

/-- **Pointers encoded are pointers decoded.** -/
theorem decodeMap_encodeMap (h : ∀ p ∈ ptrs, p.Fits) : decodeMap (encodeMap ptrs) = .ok ptrs := by
  rw [decodeMap, encodeMap_eq, leWords_flatMap]
  · induction ptrs with
    | nil => rfl
    | cons p ps ih =>
      rw [flatMap_cons, (h p (by simp)).decodeWords, ih fun q hq => h q (by simp [hq])]
      rfl
  · intro w hw
    obtain ⟨p, hp, hw⟩ := mem_flatMap.1 hw
    exact (h p hp).words_lt w hw

theorem length_encodeMap (h : ∀ p ∈ ptrs, p.Fits) :
    (encodeMap ptrs).length = (ptrs.map Pointer.size).sum := by
  induction ptrs with
  | nil => rfl
  | cons p ps ih =>
    simp only [encodeMap, flatMap_cons, length_append, map_cons, sum_cons] at ih ⊢
    rw [ih fun q hq => h q (by simp [hq]), length_flatMap_leWord, (h p (by simp)).length_words]

theorem size_decodeMap (h : decodeMap m = .ok ps) : (ps.map Pointer.size).sum ≤ m.length := by
  rw [← length_encodeMap (fits_decodeMap h), encodeMap_eq, (decodeWords_words h (leWords_lt m)).2,
    length_flatMap_leWord]
  exact length_leWords m

/-- A pointer `Pointer::extent` makes, or a map area can hold. -/
def Pointer.Made (p : Pointer) : Prop :=
  (∃ count lbn, lbn < 2 ^ 32 ∧ extent? count lbn = some p) ∨ ∃ m ps, decodeMap m = .ok ps ∧ p ∈ ps

theorem Pointer.Made.fits (h : p.Made) : p.Fits := by
  rcases h with ⟨count, lbn, hl, h⟩ | ⟨m, ps, h, hp⟩
  exacts [(fits_extent? h hl).1, fits_decodeMap h p hp]

/-- **Maps round trip**, from pointers and from bytes. -/
theorem map_codec : (∀ ps : List Pointer, (∀ p ∈ ps, p.Made) → decodeMap (encodeMap ps) = .ok ps) ∧
    (∀ (m : List UInt8) ps, Even m.length → decodeMap m = .ok ps → encodeMap ps = m) ∧
    ∀ p : Pointer, p.Made → (encodeMap [p]).length = p.size := by
  refine ⟨fun ps h => decodeMap_encodeMap fun p hp => (h p hp).fits, fun m ps he h => ?_, fun p h => ?_⟩
  · rw [encodeMap_eq, (decodeWords_words h (leWords_lt m)).2, flatMap_leWords he]
  · rw [length_encodeMap (by simpa using h.fits), map_singleton, sum_singleton]

def onePerFormat : List Pointer :=
  [.placement 5, .extent 1 5 70, .extent 2 300 (2 ^ 23), .extent 3 70000 (2 ^ 31)]

theorem map_codec_formats :
    (∀ p ∈ onePerFormat, p.Made) ∧ decodeMap (encodeMap onePerFormat) = .ok onePerFormat := by
  have hmade : ∀ p ∈ onePerFormat, p.Made := by
    simp only [onePerFormat, forall_mem_cons, not_mem_nil, false_imp_iff, implies_true, and_true]
    exact ⟨.inr ⟨[5, 0], _, rfl, mem_cons_self⟩, .inl ⟨5, 70, by decide, rfl⟩,
      .inl ⟨300, 2 ^ 23, by decide, rfl⟩, .inl ⟨70000, 2 ^ 31, by decide, rfl⟩⟩
  exact ⟨hmade, map_codec.1 _ hmade⟩

end Ods
