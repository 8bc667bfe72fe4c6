/-
  The proleptic Gregorian calendar, counted day by day with the leap-year rule, and
  where in its era of 400 years a day is.  Years that start in March end with the leap
  day, so that formulas for the date of a day number count from 1 March of year 0
  (`Date.number`).
-/
import Mathlib

namespace Calendar

structure Date where
  year : ℕ
  month : ℕ
  day : ℕ
  deriving DecidableEq, Repr

def isLeap (year : ℕ) : Bool := year % 4 = 0 && year % 100 ≠ 0 || year % 400 = 0

def monthDays (year month : ℕ) : ℕ :=
  if month = 2 then if isLeap year then 29 else 28
  else if month = 4 ∨ month = 6 ∨ month = 9 ∨ month = 11 then 30 else 31

namespace Date

def next (d : Date) : Date :=
  if d.day < monthDays d.year d.month then { d with day := d.day + 1 }
  else if d.month < 12 then ⟨d.year, d.month + 1, 1⟩ else ⟨d.year + 1, 1, 1⟩

structure Valid (d : Date) : Prop where
  year : 1 ≤ d.year
  month : 1 ≤ d.month ∧ d.month ≤ 12
  day : 1 ≤ d.day ∧ d.day ≤ monthDays d.year d.month

/-- Days before a year that starts in March of year `y`, from 1 March of year 0. -/
def yearStart (y : ℕ) : ℕ := 365 * y + y / 4 - y / 100 + y / 400

/-- Days before a month in its year that starts in March. -/
def monthStart (month : ℕ) : ℕ := (153 * ((month + 9) % 12) + 2) / 5

/-- The year that starts in March. -/
def marchYear (d : Date) : ℕ := if d.month ≤ 2 then d.year - 1 else d.year

/-- Days from 1 March of year 0. -/
def number (d : Date) : ℕ := yearStart d.marchYear + monthStart d.month + (d.day - 1)

theorem yearStart_succ (y : ℕ) : yearStart (y + 1) = yearStart y + 365 + (isLeap (y + 1)).toNat := by
  have h₁ : y / 100 ≤ y / 4 := Nat.div_le_div_left (by omega) (by omega)
  have h₄ : (y + 1) / 4 = y / 4 + if (y + 1) % 4 = 0 then 1 else 0 := by split_ifs <;> omega
  have h₁₀₀ : (y + 1) / 100 = y / 100 + if (y + 1) % 100 = 0 then 1 else 0 := by split_ifs <;> omega
  have h₄₀₀ : (y + 1) / 400 = y / 400 + if (y + 1) % 400 = 0 then 1 else 0 := by split_ifs <;> omega
  have h100 : (y + 1) % 100 = 0 → (y + 1) % 4 = 0 := by omega
  have h400 : (y + 1) % 400 = 0 → (y + 1) % 100 = 0 := by omega
  unfold yearStart isLeap
  rw [h₄, h₁₀₀, h₄₀₀]
  split_ifs <;> simp_all <;> omega

theorem monthStart_next (y : ℕ) {m : ℕ} (h1 : 1 ≤ m) (h12 : m ≤ 12) : monthStart m + monthDays y m =
    if m = 2 then 365 + (isLeap y).toNat else monthStart (m % 12 + 1) := by
  unfold monthStart monthDays
  interval_cases m <;> cases isLeap y <;> rfl

variable {d : Date}

theorem Valid.next (h : d.Valid) : d.next.Valid := by
  obtain ⟨hy, hm, hd⟩ := h
  have hpos (y m : ℕ) : 1 ≤ monthDays y m := by
    unfold monthDays
    split_ifs <;> omega
  unfold Date.next
  split_ifs with hlast hdec
  · exact ⟨hy, hm, by dsimp only; omega⟩
  · exact ⟨hy, by dsimp only; omega, le_rfl, hpos _ _⟩
  · exact ⟨by dsimp only; omega, by dsimp only; omega, le_rfl, hpos _ _⟩

theorem number_next (h : d.Valid) : d.next.number = d.number + 1 := by
  obtain ⟨year, month, day⟩ := d
  obtain ⟨hy, ⟨hm1, hm12⟩, hd⟩ := h
  have hmonth := monthStart_next year hm1 hm12
  simp only at hy hm1 hm12 hd hmonth
  unfold Date.next
  simp only
  split_ifs with hlast hdec
  · simp only [number, marchYear]
    omega
  · simp only [number, marchYear]
    rw [Nat.mod_eq_of_lt hdec] at hmonth
    by_cases h2 : month = 2
    · subst h2
      have hyear := yearStart_succ (year - 1)
      rw [Nat.sub_add_cancel hy] at hyear
      simp only [if_true] at hmonth
      simp only [show monthStart (2 + 1) = 0 from rfl, show ¬ 2 + 1 ≤ 2 by omega, if_false, le_refl, if_true]
      omega
    · rw [if_neg h2] at hmonth
      have hiff : month + 1 ≤ 2 ↔ month ≤ 2 := by omega
      simp only [hiff]
      omega
  · obtain rfl : month = 12 := by omega
    rw [if_neg (by omega)] at hmonth
    simp only [number, marchYear]
    simp at hmonth ⊢
    omega

/-- **Counting days**: the date `n` days after. -/
theorem Valid.iterate (h : d.Valid) (n : ℕ) :
    (Date.next^[n] d).Valid ∧ (Date.next^[n] d).number = d.number + n := by
  induction n with
  | zero => exact ⟨h, rfl⟩
  | succ n ih =>
    rw [Function.iterate_succ_apply', number_next ih.1, ih.2]
    exact ⟨ih.1.next, rfl⟩

/-! ## Eras -/

/-- The day of the year that starts in March. -/
def yearDay (d : Date) : ℕ := monthStart d.month + (d.day - 1)

theorem Valid.yearDay_lt (h : d.Valid) : d.yearDay < 365 + (isLeap (d.marchYear + 1)).toNat := by
  obtain ⟨hy, ⟨hm1, hm12⟩, hd⟩ := h
  have hmonth := monthStart_next d.year hm1 hm12
  unfold yearDay marchYear
  generalize d.month = m at *
  interval_cases m <;> simp [monthStart, Nat.sub_add_cancel hy] at hmonth ⊢ <;> omega

theorem Valid.of_yearDay (h : d.Valid) :
    (5 * d.yearDay + 2) / 153 = (d.month + 9) % 12 ∧ d.yearDay = monthStart d.month + (d.day - 1) := by
  obtain ⟨-, ⟨hm1, hm12⟩, hd⟩ := h
  refine ⟨?_, rfl⟩
  unfold yearDay
  unfold monthDays at hd
  generalize d.month = m at *
  interval_cases m <;> simp [monthStart] at hd ⊢ <;> (try split_ifs at hd) <;> omega

theorem Valid.parts (h : d.Valid) : ∃ e c q r : ℕ, c < 4 ∧ q < 25 ∧ r < 4 ∧
    d.marchYear = 400 * e + 100 * c + 4 * q + r ∧
    d.yearDay < 365 + (if r = 3 ∧ (q ≠ 24 ∨ c = 3) then 1 else 0) ∧
    d.number = 146097 * e + 36524 * c + 1461 * q + 365 * r + d.yearDay := by
  have hlt := h.yearDay_lt
  have hnum : d.number = yearStart d.marchYear + d.yearDay := Nat.add_assoc _ _ _
  generalize d.marchYear = y at *
  refine ⟨y / 400, y % 400 / 100, y % 100 / 4, y % 4, by omega, by omega, by omega, by omega, ?_, ?_⟩
  · have hleap : isLeap (y + 1) = true ↔ y % 4 = 3 ∧ (y % 100 / 4 ≠ 24 ∨ y % 400 / 100 = 3) := by
      simp only [isLeap, Bool.or_eq_true, Bool.and_eq_true, decide_eq_true_eq]
      omega
    simp only [← hleap]
    cases h : isLeap (y + 1) <;> simpa [h] using hlt
  · have h₄ : y / 4 = 100 * (y / 400) + 25 * (y % 400 / 100) + y % 100 / 4 := by omega
    have h₁₀₀ : y / 100 = 4 * (y / 400) + y % 400 / 100 := by omega
    have hy : y = 4 * (y / 4) + y % 4 := by omega
    rw [hnum, yearStart]
    omega

end Date

end Calendar
