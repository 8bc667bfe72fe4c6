/-
  The text of a VMS time (`Ods.Time`) is that of its date in the calendar.
-/
import Vaxpunk.Lib.Calendar
import Vaxpunk.Ods.Time

namespace Ods.Time

open Calendar

theorem i64_step {α : Type} {x : ℤ} {f : ℤ → Option α} (h : -2 ^ 40 < x ∧ x < 2 ^ 41) :
    (i64 x >>= f) = f x := by
  rw [i64, if_pos (by omega)]
  rfl

theorem yearOfEra {c q r doy doe : ℤ} (hc : 0 ≤ c ∧ c < 4) (hq : 0 ≤ q ∧ q < 25) (hr : 0 ≤ r ∧ r < 4)
    (hdoy : 0 ≤ doy ∧ doy < 365 + if r = 3 ∧ (q ≠ 24 ∨ c = 3) then 1 else 0)
    (hdoe : doe = 36524 * c + 1461 * q + 365 * r + doy) :
    (doe - doe / 1460 + doe / 36524 - doe / 146096) / 365 = 100 * c + 4 * q + r := by
  have h₁ : doe / 146096 = if doe = 146096 then 1 else 0 := by
    split_ifs at hdoy ⊢ <;> omega
  have h₂ : doe / 36524 = if doe = 146096 then 4 else c := by
    split_ifs at hdoy ⊢ <;> omega
  rw [h₁, h₂]
  split_ifs at hdoy ⊢ <;> omega

theorem civil_parts {n : ℕ} {e doe yoe doy mp : ℤ} (hn : n < 2 ^ 40)
    (hz : (n : ℤ) + 678941 - 60 = 146097 * e + doe) (hdoe : 0 ≤ doe ∧ doe < 146097)
    (hyoe : (doe - doe / 1460 + doe / 36524 - doe / 146096) / 365 = yoe)
    (hdoy : doe - (365 * yoe + yoe / 4 - yoe / 100) = doy) (hmp : (5 * doy + 2) / 153 = mp)
    (hyear : 0 ≤ yoe ∧ yoe < 400) (hday : 0 ≤ doy ∧ doy < 366) :
    civil n = some (yoe + e * 400 + (if (if mp < 10 then mp + 3 else mp - 9) ≤ 2 then 1 else 0),
      (if mp < 10 then mp + 3 else mp - 9), doy - (153 * mp + 2) / 5 + 1) := by
  have hera : ((n : ℤ) + 678941 - 60) / 146097 = e := by clear hyoe hdoy hmp; omega
  have hmod : ((n : ℤ) + 678941 - 60) % 146097 = doe := by clear hyoe hdoy hmp hera; omega
  have hmonth : 0 ≤ mp ∧ mp < 12 := by clear hyoe hdoy hera hmod; omega
  have hbound : -1 < e ∧ e < 2 ^ 30 := by clear hyoe hdoy hmp hera hmod; omega
  unfold civil
  refine (i64_step (by clear hyoe hdoy hmp hera hmod; omega)).trans ?_
  refine (i64_step (by clear hyoe hdoy hmp hera hmod; omega)).trans ?_
  simp only [hera, hmod]
  clear hera hmod hz
  refine (i64_step (by clear hyoe hdoy hmp; omega)).trans ?_
  refine (i64_step (by clear hyoe hdoy hmp; omega)).trans ?_
  refine (i64_step (by clear hyoe hdoy hmp; omega)).trans ?_
  simp only [hyoe]
  clear hyoe
  refine (i64_step (by clear hdoy hmp; omega)).trans ?_
  refine (i64_step (by clear hdoy hmp; omega)).trans ?_
  refine (i64_step (by clear hdoy hmp; omega)).trans ?_
  refine (i64_step (by rw [hdoy]; clear hdoy hmp; omega)).trans ?_
  simp only [hdoy]
  clear hdoy
  refine (i64_step (by omega)).trans ((i64_step (by omega)).trans ?_)
  simp only [hmp]
  clear hmp
  refine (i64_step (by omega)).trans ((i64_step (by omega)).trans ?_)
  refine (i64_step (by omega)).trans ((i64_step (by omega)).trans ?_)
  refine (i64_step (by split_ifs <;> omega)).trans ?_
  refine (i64_step (by omega)).trans ((i64_step (by omega)).trans ?_)
  exact i64_step (by split_ifs <;> omega)

/-- The first day, 17-Nov-1858. -/
def first : Date := ⟨1858, 11, 17⟩

theorem first_valid : first.Valid := ⟨by decide, by decide, by decide⟩

theorem first_number : first.number = 678881 := by decide +kernel

theorem civil_eq {n : ℕ} {d : Date} (hn : n < 2 ^ 40) (hd : d.Valid) (hnum : d.number = 678881 + n) :
    civil n = some ((d.year : ℤ), (d.month : ℤ), (d.day : ℤ)) := by
  obtain ⟨e, c, q, r, hc, hq, hr, hyear, hlt, hz⟩ := hd.parts
  obtain ⟨hmp, hday⟩ := hd.of_yearDay
  have hdoe : 36524 * c + 1461 * q + 365 * r + d.yearDay < 146097 ∧ d.yearDay < 366 := by
    split_ifs at hlt <;> omega
  have hyoe : ((36524 * c + 1461 * q + 365 * r + d.yearDay : ℕ) - _ / 1460 + _ / 36524 - _ / 146096) / 365 =
      (100 * c + 4 * q + r : ℤ) :=
    yearOfEra (by omega) (by omega) (by omega)
      (by split_ifs at hlt ⊢ <;> omega : 0 ≤ (d.yearDay : ℤ) ∧ _) (by push_cast; rfl)
  generalize hsum : 36524 * c + 1461 * q + 365 * r + d.yearDay = doe at hdoe hyoe
  have hmp' : (5 * (d.yearDay : ℤ) + 2) / 153 = ((d.month + 9) % 12 : ℕ) := by rw [← hmp]; rfl
  have hstart : (doe : ℤ) - (365 * (100 * c + 4 * q + r : ℤ) + (100 * c + 4 * q + r : ℤ) / 4 -
      (100 * c + 4 * q + r : ℤ) / 100) = d.yearDay := by
    have h₄ : (100 * c + 4 * q + r : ℤ) / 4 = 25 * c + q := by omega
    have h₁₀₀ : (100 * c + 4 * q + r : ℤ) / 100 = c := by omega
    rw [h₄, h₁₀₀]
    clear hyoe hmp hmp' hlt
    omega
  rw [civil_parts hn (by clear hyoe hmp hmp' hstart; omega : _ = 146097 * (e : ℤ) + doe) (by omega) hyoe
    hstart hmp' (by omega) (by omega)]
  obtain ⟨hy, hm, hd⟩ := hd
  clear hyoe hmp hmp' hstart hnum hz hsum hlt
  unfold Date.marchYear at hyear
  unfold Date.monthStart at hday
  rw [Option.some.injEq, Prod.mk.injEq, Prod.mk.injEq]
  refine ⟨?_, ?_, ?_⟩
  · split_ifs at hyear ⊢ <;> omega
  · split_ifs <;> omega
  · omega

/-- The date of a time, counted day by day. -/
def dateOf (t : BitVec 64) : Date := Date.next^[t.toNat / (864 * 10 ^ 9)] first

/-- A date with the name of its month, and the time of day `r` in 100 ns units. -/
def text (d : Date) (name : String) (r : ℕ) : String :=
  pad ' ' d.day ++ "-" ++ name ++ "-" ++ toString (d.year : ℤ) ++ " " ++
    pad '0' (r / (36 * 10 ^ 9) : ℕ) ++ ":" ++ pad '0' (r / (6 * 10 ^ 8) % 60 : ℕ) ++ ":" ++
    pad '0' (r / 10 ^ 7 % 60 : ℕ) ++ "." ++ pad '0' (r / 10 ^ 5 % 100 : ℕ)

/-- **The text of a time** is that of its date in the calendar and of its time of day:
    nothing overflows, and the month has a name. -/
theorem format_text (t : BitVec 64) (h : t ≠ 0) :
    ∃ name, M[(dateOf t).month - 1]? = some name ∧
      format t = some (text (dateOf t) name (t.toNat % (864 * 10 ^ 9))) := by
  have hlt := t.isLt
  have hdays : t.toNat / 10000000 / 86400 = t.toNat / (864 * 10 ^ 9) := by omega
  obtain ⟨hd, hnum⟩ := first_valid.iterate (t.toNat / (864 * 10 ^ 9))
  rw [first_number] at hnum
  have hcivil := civil_eq (by omega) hd hnum
  have hm := hd.month
  rw [← dateOf] at hcivil hm
  have hindex : (((dateOf t).month : ℤ) - 1) % 2 ^ 64 = ((dateOf t).month - 1 : ℕ) := by omega
  have hsome : (dateOf t).month - 1 < M.length := by
    rw [show M.length = 12 from rfl]
    omega
  refine ⟨_, List.getElem?_eq_getElem hsome, ?_⟩
  simp only [format, if_neg h, hdays, hcivil, Option.bind_eq_bind, Option.bind_some]
  refine (i64_step (by omega)).trans ?_
  have hhour : t.toNat / 10000000 % 86400 / 3600 = t.toNat % (864 * 10 ^ 9) / (36 * 10 ^ 9) := by omega
  have hminute : t.toNat / 10000000 % 86400 / 60 % 60 =
      t.toNat % (864 * 10 ^ 9) / (6 * 10 ^ 8) % 60 := by omega
  have hsecond : t.toNat / 10000000 % 86400 % 60 = t.toNat % (864 * 10 ^ 9) / 10 ^ 7 % 60 := by omega
  have hcenti : t.toNat / 100000 % 100 = t.toNat % (864 * 10 ^ 9) / 10 ^ 5 % 100 := by omega
  rw [hindex, Int.toNat_natCast, List.getElem?_eq_getElem hsome, hhour, hminute, hsecond, hcenti]
  rfl

/-- 12:34:56.78 on 29-Feb-2024. -/
def leapDay : BitVec 64 := 52159268967800000

theorem format_text_leapDay : format leapDay = some "29-FEB-2024 12:34:56.78" ∧
    ∃ name, M[(dateOf leapDay).month - 1]? = some name ∧
      format leapDay = some (text (dateOf leapDay) name (leapDay.toNat % (864 * 10 ^ 9))) :=
  ⟨by decide +kernel, format_text leapDay (by decide)⟩

end Ods.Time
