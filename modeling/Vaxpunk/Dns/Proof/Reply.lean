/-
  What is found in a DNS reply comes from the bytes received, except for the data of
  an answer that the end of the reply cuts off.
-/
import Vaxpunk.Dns.Reply

namespace Dns.Reply

open List Option

variable {r r' : Reply} {off n p q rtype : ℕ} {w : Walk}

/-- The same bytes were received: the replies may differ in what was there before. -/
def Agrees (r r' : Reply) : Prop := r'.rlen = r.rlen ∧ ∀ i < r.rlen, r'.bytes i = r.bytes i

theorem nameLoop_eq : r.nameLoop w = Sum.elim id r.nameLoop (r.nameStep w) := by
  rw [nameLoop]
  split <;> simp [*]

theorem length_nameLoop (hb : w.buf.length ≤ 255) : (r.nameLoop w).2.length ≤ 255 := by
  induction w using nameLoop.induct r with
  | case1 w res hs =>
    have hres : res.2 = w.buf := by
      unfold nameStep at hs
      dsimp only at hs
      split_ifs at hs <;> cases hs <;> rfl
    rw [nameLoop_eq, hs]
    exact hres ▸ hb
  | case2 w w' hs ih =>
    rw [nameLoop_eq, hs]
    exact ih ((nameStep_inr hs).2 hb)

namespace Agrees

section
variable (h : r.Agrees r')
include h

theorem slice (hle : off + n ≤ r.rlen) : r'.slice off n = r.slice off n :=
  map_congr_left fun i hi => h.2 _ (by have := mem_range.mp hi; omega)

theorem get16 (hle : off + 2 ≤ r.rlen) : r'.get16 off = r.get16 off := by
  rw [Reply.get16, Reply.get16, h.2 _ (by omega), h.2 _ (by omega)]

theorem nameStep : r'.nameStep w = r.nameStep w := by
  unfold Reply.nameStep
  rw [h.1]
  by_cases hp : w.p ≥ r.rlen
  · rw [if_pos hp, if_pos hp]
  · rw [if_neg hp, if_neg hp, h.2 _ (not_le.mp hp)]
    dsimp only
    split_ifs
    · rfl
    · rfl
    · rw [h.2 (w.p + 1) (by omega)]
    · rfl
    all_goals rw [h.slice (by omega)]

theorem nameAt : r'.nameAt off = r.nameAt off := by
  unfold Reply.nameAt
  induction (⟨off, none, 0, []⟩ : Walk) using nameLoop.induct r with
  | case1 w res hs => rw [nameLoop_eq, nameLoop_eq, h.nameStep, hs]; rfl
  | case2 w w' hs ih =>
    rw [nameLoop_eq, nameLoop_eq (r := r), h.nameStep, hs]
    exact ih

theorem questions : r'.questions n p = r.questions n p := by
  induction n generalizing p with
  | zero => rfl
  | succ n ih => simp only [Reply.questions, h.nameAt, ih]

theorem answers : r'.answers rtype n p = r.answers rtype n p := by
  induction n generalizing p with
  | zero => rfl
  | succ n ih =>
    rw [Reply.answers, Reply.answers, h.nameAt, h.1]
    refine congrArg _ (funext fun q => ?_)
    by_cases hend : q + 10 > r.rlen
    · rw [if_pos hend, if_pos hend]
    · rw [if_neg hend, if_neg hend, h.get16 (by omega), h.get16 (by omega), ih]

theorem find (h12 : 12 ≤ r.rlen) : r'.find rtype = r.find rtype := by
  rw [Reply.find, Reply.find, h.get16 (by omega), h.get16 (by omega), h.questions]
  exact congrArg _ (funext fun _ => h.answers)

end

end Agrees

theorem received_iff (hoff : off ≤ r.rlen) :
    (∀ r', r.Agrees r' → r'.slice off n = r.slice off n) ↔ off + n ≤ r.rlen := by
  refine ⟨fun h => ?_, fun h r' ha => ha.slice h⟩
  by_contra hlt
  have hother := h ⟨Function.update r.bytes r.rlen (r.bytes r.rlen + 1), r.rlen⟩
    ⟨rfl, fun i hi => Function.update_of_ne hi.ne _ _⟩
  have hat := map_inj_left.mp hother (r.rlen - off) (mem_range.mpr (by omega))
  rw [Nat.add_sub_cancel' hoff] at hat
  simp at hat

/-! ## The answers of a reply -/

/-- Past the name at `p`, if the fixed part of an answer is there. -/
def fixed (r : Reply) (p : ℕ) : Option ℕ := (r.nameAt p).1.filter (· + 10 ≤ r.rlen)

/-- Where the fixed part of answer `k` is: after the questions, or after the data that
    the answer before announces. -/
def record (r : Reply) : ℕ → Option ℕ
  | 0 => (r.questions (r.get16 4) 12).bind r.fixed
  | k + 1 => (r.record k).bind fun q => r.fixed (q + 10 + r.get16 (q + 8))

/-- The first answer of the type is number `k`, its fixed part at `q`. -/
structure First (r : Reply) (rtype k q : ℕ) : Prop where
  count : k < r.get16 6
  record : r.record k = some q
  type : r.get16 q = rtype
  first : ∀ j < k, ∀ q', r.record j = some q' → r.get16 q' ≠ rtype

/-- The data of the first answer of the type ends before the reply does. -/
def Whole (r : Reply) (rtype : ℕ) : Prop := ∀ k q, r.First rtype k q → q + 10 + r.get16 (q + 8) ≤ r.rlen

theorem fixed_le (h : r.fixed p = some q) : q + 10 ≤ r.rlen := by
  simpa using (filter_eq_some_iff.mp h).2

theorem record_le {k : ℕ} (h : r.record k = some q) : q + 10 ≤ r.rlen := by
  cases k <;> obtain ⟨_, _, h⟩ := bind_eq_some_iff.mp h <;> exact fixed_le h

theorem record_isSome {j k : ℕ} (hjk : j ≤ k) (h : (r.record k).isSome) : (r.record j).isSome := by
  induction hjk with
  | refl => exact h
  | step _ ih =>
    refine ih ?_
    rw [record] at h
    exact isSome_of_isSome_bind h

theorem answers_succ : r.answers rtype (n + 1) p = (r.fixed p).bind fun q =>
    if r.get16 q = rtype then some (q + 10) else r.answers rtype n (q + 10 + r.get16 (q + 8)) := by
  rw [answers, fixed]
  cases (r.nameAt p).1 with
  | none => rfl
  | some q =>
    by_cases hle : q + 10 ≤ r.rlen
    · simp [Option.filter, hle, not_lt.mpr hle]
    · simp [Option.filter, hle, not_le.mp hle]

theorem answers_eq_some {k : ℕ} (hk : r.record k = r.fixed p) : r.answers rtype n p = some off ↔
    ∃ j q, k ≤ j ∧ j < k + n ∧ r.record j = some q ∧ r.get16 q = rtype ∧ off = q + 10 ∧
      ∀ i, k ≤ i → i < j → ∀ q', r.record i = some q' → r.get16 q' ≠ rtype := by
  induction n generalizing k p with
  | zero => exact ⟨nofun, fun ⟨_, _, h1, h2, _⟩ => by omega⟩
  | succ n ih =>
    rw [answers_succ, ← hk]
    cases hq : r.record k with
    | none =>
      refine ⟨nofun, fun ⟨j, q, hj, _, hr, _⟩ => ?_⟩
      have := record_isSome hj (by rw [hr]; rfl)
      simp [hq] at this
    | some q =>
      rw [bind_some]
      split_ifs with ht
      · constructor
        · rintro ⟨⟩
          exact ⟨k, q, le_rfl, by omega, hq, ht, rfl, fun i h1 h2 => by omega⟩
        · rintro ⟨j, q', hj, -, hr, -, rfl, hno⟩
          -- a later answer isn't the first
          obtain rfl : k = j := by
            by_contra hne
            exact hno k le_rfl (by omega) q hq ht
          rw [some.inj (hq.symm.trans hr)]
      · have hnext : r.record (k + 1) = r.fixed (q + 10 + r.get16 (q + 8)) := by rw [record, hq, bind_some]
        rw [ih hnext]
        constructor
        · rintro ⟨j, q', hj, hlt, hr, hty, hoff, hno⟩
          refine ⟨j, q', by omega, by omega, hr, hty, hoff, fun i h1 h2 x hx => ?_⟩
          obtain rfl | hik := eq_or_lt_of_le h1
          · exact some.inj (hq.symm.trans hx) ▸ ht
          · exact hno i hik h2 x hx
        · rintro ⟨j, q', hj, hlt, hr, hty, hoff, hno⟩
          have hne : k ≠ j := by
            rintro rfl
            exact ht (some.inj (hq.symm.trans hr) ▸ hty)
          exact ⟨j, q', by omega, by omega, hr, hty, hoff, fun i h1 h2 => hno i (by omega) h2⟩

theorem find_eq_some : r.find rtype = some off ↔ ∃ k q, r.First rtype k q ∧ off = q + 10 := by
  have hlist : (∃ j q, 0 ≤ j ∧ j < 0 + r.get16 6 ∧ r.record j = some q ∧ r.get16 q = rtype ∧ off = q + 10 ∧
      ∀ i, 0 ≤ i → i < j → ∀ q', r.record i = some q' → r.get16 q' ≠ rtype) ↔
      ∃ k q, r.First rtype k q ∧ off = q + 10 :=
    ⟨fun ⟨j, q, _, hj, hr, ht, ho, hno⟩ => ⟨j, q, ⟨by omega, hr, ht, fun i => hno i (Nat.zero_le _)⟩, ho⟩,
      fun ⟨j, q, h, ho⟩ => ⟨j, q, Nat.zero_le _, by have := h.count; omega, h.record, h.type, ho, fun i _ => h.first i⟩⟩
  rw [← hlist, find]
  cases hp : r.questions (r.get16 4) 12 with
  | none =>
    refine ⟨nofun, fun ⟨j, q, hj, _, hr, _⟩ => ?_⟩
    have := record_isSome hj (by rw [hr]; rfl)
    simp [record, hp] at this
  | some p =>
    rw [bind_some]
    exact answers_eq_some (by rw [record, hp, bind_some])

/-- **Replies of any bytes**: a name fits its buffer, names and answers are found from
    the bytes received alone, and what is found is the data of the first answer of the
    type.  The data found was received exactly if that answer is whole, and an address
    exactly if four bytes of the first answer of TYPE_A were. -/
theorem find_received (rtype : ℕ) (h : 12 ≤ r.rlen) : (∀ off, (r.nameAt off).2.length ≤ 256) ∧
    (∀ r', r.Agrees r' → (∀ off, r'.nameAt off = r.nameAt off) ∧ r'.find rtype = r.find rtype) ∧
    (∀ off, r.find rtype = some off ↔ ∃ k q, r.First rtype k q ∧ off = q + 10) ∧
    (r.Whole rtype ↔ ∀ off, r.find rtype = some off →
      ∀ r', r.Agrees r' → r'.slice off (r.get16 (off - 2)) = r.slice off (r.get16 (off - 2))) ∧
    ((∀ k q, r.First 1 k q → q + 14 ≤ r.rlen) ↔ ∀ r', r.Agrees r' → r'.addr = r.addr) := by
  have hrec : ∀ {k q t n}, r.First t k q →
      ((∀ r', r.Agrees r' → r'.slice (q + 10) n = r.slice (q + 10) n) ↔ q + 10 + n ≤ r.rlen) := fun hf =>
    received_iff (record_le hf.record)
  refine ⟨fun off => ?_, fun r' ha => ⟨fun off => ha.nameAt, ha.find h⟩, fun off => find_eq_some, ?_, ?_⟩
  · exact (length_nameLoop (Nat.zero_le _)).trans (by decide)
  · constructor
    · intro hw off hoff
      obtain ⟨k, q, hf, rfl⟩ := find_eq_some.mp hoff
      exact (hrec hf).mpr (hw k q hf)
    · intro hall k q hf
      exact (hrec hf).mp (hall _ (find_eq_some.mpr ⟨k, q, hf, rfl⟩))
  · have haddr : ∀ {k q r'}, r.First 1 k q → r.Agrees r' →
        (r'.addr = r.addr ↔ r'.slice (q + 10) 4 = r.slice (q + 10) 4) := fun hf ha => by
      rw [addr, addr, ha.find h, find_eq_some.mpr ⟨_, _, hf, rfl⟩, map_some, map_some, some.injEq]
    constructor
    · intro hw r' ha
      cases hoff : r.find 1 with
      | none =>
        rw [addr, addr, ha.find h, hoff]
        rfl
      | some off =>
        obtain ⟨k, q, hf, rfl⟩ := find_eq_some.mp hoff
        exact (haddr hf ha).mpr ((hrec hf).mpr (hw k q hf) r' ha)
    · intro hall k q hf
      exact (hrec hf).mp fun r' ha => (haddr hf ha).mp (hall r' ha)

/-- `n` bytes received of a reply with an answer of TYPE_A and the data `x`, or only of
    the answer's fixed part with `x` after it. -/
def answerA (n : ℕ) (x : BitVec 8) : Reply where
  bytes i := if i = 7 ∨ i = 14 ∨ i = 16 then 1 else if i = 22 then 4 else if i < 23 then 0 else x
  rlen := n

theorem find_answerA {n : ℕ} (hn : 23 ≤ n) (x : BitVec 8) : (answerA n x).find 1 = some 23 := by
  have hname : ((answerA n x).nameAt 12).1 = some 13 := by
    rw [nameAt, nameLoop_eq, nameStep, if_neg (by simp [answerA]; omega)]
    rfl
  have h4 : (answerA n x).get16 4 = 0 := by simp [get16, answerA]
  have h6 : (answerA n x).get16 6 = 1 := by simp [get16, answerA]
  rw [find, h4, h6, questions, bind_some, answers, hname]
  simp [get16, answerA, hn]

/-- The address of a reply that is cut off is what an earlier reply left there. -/
theorem addr_not_received : 12 ≤ (answerA 23 0).rlen ∧ (answerA 23 0).Agrees (answerA 23 1) ∧
    (answerA 23 1).addr ≠ (answerA 23 0).addr := by
  refine ⟨by decide, ⟨rfl, by decide⟩, ?_⟩
  rw [addr, addr, find_answerA le_rfl, find_answerA le_rfl]
  decide

/-- Four bytes more, and the answer is whole. -/
theorem find_received_answerA : (answerA 27 9).find 1 = some 23 ∧ (answerA 27 9).Whole 1 ∧
    ∀ r', (answerA 27 9).Agrees r' → r'.addr = some [9, 9, 9, 9] := by
  obtain ⟨-, -, hfind, -, haddr⟩ := find_received (r := answerA 27 9) 1 (by decide)
  have hfound := find_answerA (by decide : 23 ≤ 27) 9
  have hq : ∀ k q, (answerA 27 9).First 1 k q → q = 13 := fun k q hf => by
    have := (hfind _).mpr ⟨k, q, hf, rfl⟩
    rw [hfound, some.injEq] at this
    omega
  refine ⟨hfound, fun k q hf => ?_, fun r' ha => (haddr.mp (fun k q hf => ?_) r' ha).trans ?_⟩
  · rw [hq k q hf]
    decide
  · rw [hq k q hf]
    decide
  · rw [addr, hfound]
    decide

end Dns.Reply
