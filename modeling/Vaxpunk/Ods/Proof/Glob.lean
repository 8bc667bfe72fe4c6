/-
  Wildcards match what they say: the loop that remembers only the last `*` finds a
  way to split the name according to the pattern whenever there is one.
-/
import Vaxpunk.Lib.Glob
import Vaxpunk.Ods.Spec

namespace Ods.Name

open List Glob

/-- `*`, which stands for any sequence of characters. -/
def IsAny (c : ℕ) : Prop := c = ANY.toNat

/-- `%` and `?` stand for any one character, another one for itself in either case. -/
def Fits (c d : ℕ) : Prop := c = ONE.toNat ∨ upcase c = upcase d

/-- The name `s` can be split according to the pattern `p`. -/
def Matches (p s : List ℕ) : Prop := Splits IsAny Fits p s

variable {p s : List ℕ} {g g' : GlobState} {b : Bool} {fuel : ℕ}

/-- What the loop keeps: since the last `*` it has passed single characters `seg` of the
    pattern, one for each of the name. -/
structure Tracks (p : List ℕ) (g : GlobState) : Prop where
  mark : g.mark ≤ g.si
  since : ∀ {st}, g.star = some st → ∃ seg, p.drop (st + 1) = seg ++ p.drop g.pi ∧
    seg.length = g.si - g.mark ∧ ∀ c ∈ seg, ¬IsAny c

/-- There is a way to match from here, or from a later place for the last `*`. -/
def Left (p s : List ℕ) (g : GlobState) : Prop :=
  Matches (p.drop g.pi) (s.drop g.si) ∨
    ∃ st k, g.star = some st ∧ g.mark < k ∧ Matches (p.drop (st + 1)) (s.drop k)

/-- The turns that may be left. -/
def turns (p s : List ℕ) (g : GlobState) : ℕ :=
  (s.length - g.mark) * (s.length + p.length + 1) + (s.length - g.si) + (p.length - g.pi)

/-- What a turn that is not the last does. -/
structure Turn (p s : List ℕ) (g g' : GlobState) : Prop where
  tracks : Tracks p g'
  left : Left p s g' ↔ Left p s g
  turns : turns p s g' < turns p s g

/-! ## One turn -/

theorem globChar_iff {c d : ℕ} :
    globChar c d = true ↔ ¬IsAny c ∧ Fits c d := by
  have hone : ONE.toNat ≠ ANY.toNat := by decide
  simp only [IsAny, Fits, globChar, Bool.or_eq_true, Bool.and_eq_true, decide_eq_true_eq]
  constructor
  · rintro (rfl | ⟨hc, hd⟩)
    · exact ⟨hone, .inl rfl⟩
    · exact ⟨hc, .inr hd⟩
  · rintro ⟨hc, h | h⟩
    · exact .inl h
    · exact .inr ⟨hc, h⟩

theorem drop_getD {l : List ℕ} {i : ℕ} (h : i < l.length) : l.drop i = l.getD i 0 :: l.drop (i + 1) := by
  rw [drop_eq_getElem_cons h, getD_eq_getElem l 0 h]

theorem Tracks.later (ht : Tracks p g) {st k : ℕ} (hst : g.star = some st)
    (h : Matches (p.drop (st + 1)) (s.drop k)) :
    Matches (p.drop g.pi) (s.drop (k + (g.si - g.mark))) := by
  obtain ⟨seg, hseg, hlen, hchars⟩ := ht.since hst
  rw [hseg] at h
  rw [← hlen, ← drop_drop]
  exact splits_append hchars h

theorem turn_char (ht : Tracks p g) (hs : g.si < s.length) (hp : g.pi < p.length)
    (hc : globChar (p.getD g.pi 0) (s.getD g.si 0) = true) :
    Turn p s g { g with pi := g.pi + 1, si := g.si + 1 } where
  tracks := {
    mark := ht.mark.trans (Nat.le_succ _)
    since := fun hst => by
      obtain ⟨seg, hseg, hlen, hchars⟩ := ht.since hst
      have hmark := ht.mark
      refine ⟨seg ++ [p.getD g.pi 0], ?_, ?_, ?_⟩
      · rw [hseg, drop_getD hp, append_assoc]
        rfl
      · rw [length_append, length_singleton]
        simp only
        omega
      · rw [forall_mem_append, forall_mem_singleton]
        exact ⟨hchars, (globChar_iff.1 hc).1⟩ }
  left := by
    have hiff : Matches (p.drop g.pi) (s.drop g.si) ↔ Matches (p.drop (g.pi + 1)) (s.drop (g.si + 1)) := by
      rw [drop_getD hs, drop_getD hp]
      exact (splits_char (globChar_iff.1 hc).1).trans (and_iff_right (globChar_iff.1 hc).2)
    rw [Left, Left, hiff]
  turns := by
    simp only [turns]
    omega

/-- A `*` stands for nothing at first.  What an earlier one could still stand for, this
    one can as well. -/
theorem turn_star (ht : Tracks p g) (hp : g.pi < p.length) (hc : IsAny (p.getD g.pi 0)) :
    Turn p s g { g with star := some g.pi, mark := g.si, pi := g.pi + 1 } where
  tracks := ⟨le_rfl, fun hst => ⟨[], by rw [Option.some.inj hst]; rfl, (Nat.sub_self _).symm, nofun⟩⟩
  left := by
    have hiff : ∀ k, Matches (p.drop g.pi) (s.drop k) ↔ ∃ n, Matches (p.drop (g.pi + 1)) (s.drop (k + n)) := by
      intro k
      rw [drop_getD hp, Matches, splits_star hc]
      simp only [drop_drop, Matches]
    constructor
    · rintro (h | ⟨st, k, hst, hk, h⟩)
      · exact .inl ((hiff _).2 ⟨0, h⟩)
      · obtain rfl := Option.some.inj hst
        simp only at hk
        exact .inl ((hiff _).2 ⟨k - g.si, by rwa [Nat.add_sub_cancel' hk.le]⟩)
    · rintro (h | ⟨st, k, hst, hk, h⟩)
      · obtain ⟨_ | n, hn⟩ := (hiff _).1 h
        · exact .inl hn
        · exact .inr ⟨g.pi, g.si + (n + 1), rfl, by simp, hn⟩
      · obtain ⟨n, hn⟩ := (hiff _).1 (ht.later hst h)
        have := ht.mark
        exact .inr ⟨g.pi, _, rfl, by simp only; omega, hn⟩
  turns := by
    have := Nat.mul_le_mul_right (s.length + p.length + 1) (Nat.sub_le_sub_left ht.mark s.length)
    simp only [turns]
    omega

theorem not_matches (hs : g.si < s.length)
    (hc : ¬(g.pi < p.length ∧ globChar (p.getD g.pi 0) (s.getD g.si 0) = true))
    (hstar : ¬(g.pi < p.length ∧ p.getD g.pi 0 = ANY.toNat)) : ¬Matches (p.drop g.pi) (s.drop g.si) := by
  rw [drop_getD hs]
  by_cases hp : g.pi < p.length
  · have hany : ¬IsAny (p.getD g.pi 0) := fun h => hstar ⟨hp, h⟩
    rw [drop_getD hp, Matches, splits_char hany]
    exact fun h => hc ⟨hp, globChar_iff.2 ⟨hany, h.1⟩⟩
  · simp [drop_of_length_le (Nat.le_of_not_lt hp), Matches]

theorem turn_retry (ht : Tracks p g) (hs : g.si < s.length) {st : ℕ} (hst : g.star = some st)
    (hno : ¬Matches (p.drop g.pi) (s.drop g.si)) :
    Turn p s g { g with pi := st + 1, mark := g.mark + 1, si := g.mark + 1 } where
  tracks := ⟨le_rfl, fun hst' =>
    ⟨[], by rw [Option.some.inj (hst.symm.trans hst')]; rfl, (Nat.sub_self _).symm, nofun⟩⟩
  left := by
    constructor
    · rintro (h | ⟨st', k, hst', hk, h⟩)
      · exact .inr ⟨st, _, hst, Nat.lt_succ_self _, h⟩
      · exact .inr ⟨st', k, hst', Nat.lt_of_succ_lt hk, h⟩
    · rintro (h | ⟨st', k, hst', hk, h⟩)
      · exact absurd h hno
      · obtain rfl := Option.some.inj (hst.symm.trans hst')
        rcases Nat.eq_or_lt_of_le (Nat.succ_le_of_lt hk) with rfl | hk
        · exact .inl h
        · exact .inr ⟨st, k, hst, hk, h⟩
  turns := by
    have hmark := ht.mark
    have hrow : (s.length - g.mark) * (s.length + p.length + 1) =
        (s.length - (g.mark + 1)) * (s.length + p.length + 1) + (s.length + p.length + 1) := by
      rw [← Nat.succ_mul]
      congr 1
      omega
    simp only [turns]
    omega

theorem globStep_next (ht : Tracks p g) (h : globStep p s g = .inr g') : Turn p s g g' := by
  rw [globStep] at h
  split_ifs at h with hs hc hstar
  · exact Sum.inr.inj h ▸ turn_char ht hs hc.1 hc.2
  · exact Sum.inr.inj h ▸ turn_star ht hstar.1 hstar.2
  · cases hst : g.star with
    | none => simp [hst] at h
    | some st =>
      simp only [hst, Sum.inr.injEq] at h
      have := turn_retry ht hs hst (not_matches hs hc hstar)
      exact h ▸ hst ▸ this

theorem globStep_answer (ht : Tracks p g) (h : globStep p s g = .inl b) : b = true ↔ Left p s g := by
  rw [globStep] at h
  split_ifs at h with hs hc hstar
  · cases hst : g.star with
    | some st => simp [hst] at h
    | none =>
      have hb : b = false := by simpa [hst, eq_comm] using h
      have hno := not_matches hs hc hstar
      simp [hb, Left, hst, hno]
  · have hend : s.length ≤ g.si := Nat.le_of_not_lt hs
    have hall : b = true ↔ Matches (p.drop g.pi) (s.drop g.si) := by
      rw [← Sum.inl.inj h, drop_of_length_le hend, Matches, splits_empty]
      simp [IsAny]
    rw [hall, Left]
    refine ⟨.inl, ?_⟩
    rintro (h | ⟨st, k, hst, hk, h⟩)
    · exact h
    · have hlater := ht.later hst h
      have := ht.mark
      rwa [drop_of_length_le (l := s) (by omega)] at hlater ⊢

/-! ## All turns -/

theorem globLoop_answer : ∀ {fuel} {g : GlobState}, Tracks p g → turns p s g < fuel →
    ∃ b, globLoop p s fuel g = some b ∧ (b = true ↔ Left p s g)
  | fuel + 1, g, ht, hf => by
    rw [globLoop]
    cases h : globStep p s g with
    | inl b => exact ⟨b, rfl, globStep_answer ht h⟩
    | inr g' =>
      have hturn := globStep_next ht h
      have hless := hturn.turns
      obtain ⟨b, hb, hiff⟩ := globLoop_answer hturn.tracks (show turns p s g' < fuel by omega)
      exact ⟨b, hb, hiff.trans hturn.left⟩

theorem left_start : Left p s ⟨0, 0, none, 0⟩ ↔ Matches p s := by simp [Left]

theorem glob_answer (p s : List ℕ) :
    ∃ b, glob p s = some b ∧ (b = true ↔ Left p s ⟨0, 0, none, 0⟩) := by
  refine globLoop_answer ⟨le_rfl, nofun⟩ ?_
  simp only [turns, Nat.sub_zero, Nat.add_mul]
  omega

/-- **A wildcard match ends, and says whether the name can be split according to the
    pattern.** -/
theorem glob_matches (p s : List ℕ) : ∃ b, glob p s = some b ∧ (b = true ↔ Matches p s) := by
  obtain ⟨b, hb, hleft⟩ := glob_answer p s
  exact ⟨b, hb, hleft.trans left_start⟩

-- `*%b` against "aab" and against "b"
example : glob [1, 2, 98] [97, 97, 66] = some true ∧ glob [1, 2, 98] [66] = some false := by decide

theorem matchesPattern_iff (p s : List ℕ) : ∃ b, matchesPattern p s = some b ∧
    (b = true ↔ Matches (p.take (typeAt p)) (s.take (typeAt s)) ∧
      Matches (p.drop (typeAt p)) (s.drop (typeAt s))) := by
  obtain ⟨b, hb, hname⟩ := glob_answer (p.take (typeAt p)) (s.take (typeAt s))
  obtain ⟨b', hb', htype⟩ := glob_answer (p.drop (typeAt p)) (s.drop (typeAt s))
  rw [left_start] at hname htype
  cases b with
  | false => exact ⟨false, by simp [matchesPattern, hb], by simp [← hname]⟩
  | true => exact ⟨b', by simp [matchesPattern, hb, hb'], by simp [← hname, htype]⟩

end Ods.Name
