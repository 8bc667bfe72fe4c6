/-
  Text read at an offset.

  * `ends_next`: a record moves the reader on, none is left only at the end, and the
    fuel is enough.
  * `Run`: the records read one after another.  A scan, a copy and a read from a mark
    on go through the same run (`scan_of_run`, `collect_of_run`, `readLines_of_run`).
  * `readText_window`: what is read at an offset is that window of the whole text.
-/
import Vaxpunk.Ods.Copy
import Vaxpunk.Ods.Proof.Records
import Vaxpunk.Ods.Proof.Transfer

namespace Ods

open Stream (Agrees Ends Lawful Same Tracks)
open Window (window put filled)
open List FileReader Stream Records

variable {fuel n size : ℕ} {rs : List (List UInt8)} {marks : List (ℕ × ℕ)} {view : TextView}

namespace Records

variable {σ ε : Type} {read : Stream.Reader ε σ UInt8}

/-! ## Where a record leaves the reader -/

variable {s s' : σ × ℕ}

section tracks
variable {I : σ → Prop} {pos : σ → ℕ} {size : ℕ}

/-- A reader at the position it is taken to be at. -/
def In (I : σ → Prop) (pos : σ → ℕ) (s : σ × ℕ) : Prop := I s.1 ∧ s.2 = pos s.1

variable (ht : Tracks read I pos size)
include ht

theorem In.le (hs : In I pos s) : s.2 ≤ size := by
  rw [hs.2]
  exact ht.le hs.1

theorem ends_byte (hs : In I pos s) :
    Ends (byte read) s (fun b s' => In I pos s' ∧ (b = none → s'.2 = size) ∧
      (b ≠ none → s'.2 = s.2 + 1)) (· ≠ .stuck) := by
  obtain ⟨hI, hp⟩ := hs
  unfold Ends byte
  cases hread : read 1 s.1 with
  | error e => simp
  | ok p =>
    obtain ⟨x, r⟩ := p
    obtain ⟨hr, hpos, hlen⟩ := ht.step hI hread
    cases x with
    | nil =>
      refine ⟨fun b s' h => ?_, fun e h => by cases h⟩
      cases h
      have hstop := ht.stop hI hread
      exact ⟨⟨hr, hp.trans (by rw [hpos]; rfl)⟩, fun _ => hp.trans hstop, fun h => absurd rfl h⟩
    | cons c x =>
      refine ⟨fun b s' h => ?_, fun e h => by cases h⟩
      cases h
      rw [length_cons] at hpos hlen
      exact ⟨⟨hr, show s.2 + 1 = pos r by omega⟩, fun h => (by cases h), fun _ => rfl⟩

theorem ends_exact (n : ℕ) (hs : In I pos s) :
    Ends (exact read n) s (fun _ s' => In I pos s' ∧ s.2 ≤ s'.2) (· ≠ .stuck) := by
  obtain ⟨hI, hp⟩ := hs
  unfold Ends exact
  cases hread : readExact read n n s.1 with
  | none => simp
  | some p =>
    obtain ⟨hr, hpos⟩ := ht.readExact hI hread
    refine ⟨fun b s' h => ?_, fun e h => by cases h⟩
    cases h
    exact ⟨⟨hr, show s.2 + n = pos p.2 by omega⟩, Nat.le_add_right _ _⟩

theorem ends_skip (n : ℕ) (hs : In I pos s) :
    Ends (skip read n) s (fun _ s' => In I pos s' ∧ s.2 ≤ s'.2) (· ≠ .stuck) := by
  induction n generalizing s with
  | zero => exact .pure ⟨hs, le_rfl⟩
  | succ n ih =>
    refine (ends_byte ht hs).bind fun b s' hb => ?_
    cases b with
    | none =>
      refine .pure ⟨hb.1, ?_⟩
      have hend := hb.2.1 rfl
      have hle := In.le ht hs
      omega
    | some c =>
      have hmove := hb.2.2 (by simp)
      exact (ih hb.1).mono fun _ t h => ⟨h.1, by omega⟩

theorem ends_skipPad (n : ℕ) (hs : In I pos s) :
    Ends (skipPad read n) s (fun _ s' => In I pos s' ∧ s.2 ≤ s'.2) (· ≠ .stuck) := by
  unfold skipPad
  split_ifs
  · exact ends_skip ht 1 hs
  · exact .pure ⟨hs, le_rfl⟩

/-- After a record the reader is further on, and with none left it is at the end. -/
def After (I : σ → Prop) (pos : σ → ℕ) (size start : ℕ) (r : Option (List UInt8)) (s : σ × ℕ) :
    Prop :=
  In I pos s ∧ (r = none → s.2 = size) ∧ (r ≠ none → start < s.2)

theorem ends_nextVar (msb : Bool) (hs : In I pos s) (hfuel : size < s.2 + fuel) :
    Ends (nextVar read msb fuel) s (After I pos size s.2) (· ≠ .stuck) := by
  induction fuel generalizing s with
  | zero =>
    have hle := In.le ht hs
    omega
  | succ fuel ih =>
    refine (ends_byte ht hs).bind fun first s₁ h₁ => ?_
    cases first with
    | none => exact .pure ⟨h₁.1, fun _ => h₁.2.1 rfl, fun h => absurd rfl h⟩
    | some first =>
      have hone := h₁.2.2 (by simp)
      refine (ends_byte ht h₁.1).bind fun second s₂ h₂ => ?_
      cases second with
      | none => exact .throw (by simp)
      | some second =>
        have htwo := h₂.2.2 (by simp)
        simp only
        split_ifs
        · refine Ends.bind (Q := fun _ t => t = s₂) ⟨fun b t h => ?_, fun e h => ?_⟩
            fun p t hst => ?_
          · cases h
            rfl
          · cases h
          · subst hst
            refine (ends_skip ht _ h₂.1).bind fun _ s₃ h₃ => ?_
            refine (ih h₃.1 (by omega)).mono fun r t h => ⟨h.1, h.2.1, fun hr => ?_⟩
            have := h.2.2 hr
            omega
        · refine (ends_exact ht _ h₂.1).bind fun data s₃ h₃ => ?_
          refine (ends_skipPad ht _ h₃.1).bind fun _ s₄ h₄ => ?_
          exact .pure ⟨h₄.1, fun h => (by cases h), fun _ => by omega⟩

theorem ends_nextFix (n : ℕ) (hs : In I pos s) :
    Ends (nextFix read n) s (After I pos size s.2) (· ≠ .stuck) := by
  refine (ends_byte ht hs).bind fun first s₁ h₁ => ?_
  cases first with
  | none => exact .pure ⟨h₁.1, fun _ => h₁.2.1 rfl, fun h => absurd rfl h⟩
  | some first =>
    have hone := h₁.2.2 (by simp)
    refine (ends_exact ht _ h₁.1).bind fun data s₂ h₂ => ?_
    refine (ends_skipPad ht _ h₂.1).bind fun _ s₃ h₃ => ?_
    exact .pure ⟨h₃.1, fun h => (by cases h), fun _ => by omega⟩

theorem ends_nextStream (stop : List UInt8) {data : List UInt8}
    {start : ℕ} (hs : In I pos s) (hfuel : size < s.2 + fuel) (hstart : start + data.length ≤ s.2) :
    Ends (nextStream read stop fuel data) s (After I pos size start) (· ≠ .stuck) := by
  induction fuel generalizing s data with
  | zero =>
    have hle := In.le ht hs
    omega
  | succ fuel ih =>
    refine (ends_byte ht hs).bind fun b s₁ h₁ => ?_
    cases b with
    | none =>
      have hle := In.le ht hs
      have hend := h₁.2.1 rfl
      simp only
      split_ifs with hdata
      · exact .pure ⟨h₁.1, fun _ => hend, fun h => absurd rfl h⟩
      · have hlen := length_pos_iff.mpr hdata
        exact .pure ⟨h₁.1, fun _ => hend, fun _ => by omega⟩
    | some b =>
      have hone := h₁.2.2 (by simp)
      simp only
      cases cutSize stop (data ++ [b]) with
      | some cut => exact .pure ⟨h₁.1, fun h => (by cases h), fun _ => by omega⟩
      | none =>
        refine ih h₁.1 (by omega) ?_
        rw [length_append, length_singleton]
        omega

theorem ends_next (format : Format) (hs : In I pos s) (hfuel : size < fuel) :
    Ends (next read fuel format) s (After I pos size s.2) (· ≠ .stuck) := by
  cases format with
  | var vfc msb => exact ends_nextVar ht msb hs (by omega)
  | fix n => exact ends_nextFix ht n hs
  | stream stop => exact ends_nextStream ht stop hs (by omega) le_rfl

/-- **The loops over a file's records have fuel enough.** -/
theorem collect_not_stuck (format : Format) (hs : In I pos s) (hfuel : size < fuel) (hn : size < s.2 + n) :
    Ends (collect read fuel format n) s (fun _ _ => True) (· ≠ .stuck) := by
  induction n generalizing s with
  | zero =>
    have hle := In.le ht hs
    omega
  | succ n ih =>
    refine (ends_next ht format hs hfuel).bind fun r s₁ h₁ => ?_
    cases r with
    | none => exact .pure trivial
    | some r =>
      have hmove := h₁.2.2 (by simp)
      exact (ih h₁.1 (by omega)).bind fun _ _ _ => .pure trivial

end tracks

/-! ## Runs -/

section run
variable (read : Stream.Reader ε σ UInt8) (fuel : ℕ) (format : Format)

/-- Records read one after another. -/
inductive Run : σ × ℕ → List (List UInt8) → σ × ℕ → Prop
  | nil (s : σ × ℕ) : Run s [] s
  | cons {s s' s'' : σ × ℕ} {r : List UInt8} {rs : List (List UInt8)}
      (h : next read fuel format s = .ok (some r, s')) (hrest : Run s' rs s'') : Run s (r :: rs) s''

/-- The records from `s` to the end of the file. -/
def Whole (s : σ × ℕ) (rs : List (List UInt8)) : Prop :=
  ∃ s₁ s₂, Run read fuel format s rs s₁ ∧ next read fuel format s₁ = .ok (none, s₂)

def text (rs : List (List UInt8)) : List UInt8 := rs.flatMap (line format.controlSize)

end run

variable {fuel : ℕ} {format : Format}

@[simp] theorem text_cons (r : List UInt8) (rs : List (List UInt8)) :
    text format (r :: rs) = line format.controlSize r ++ text format rs := rfl

theorem text_append (as bs : List (List UInt8)) :
    text format (as ++ bs) = text format as ++ text format bs := flatMap_append

theorem length_line (skip : ℕ) (r : List UInt8) : (line skip r).length = r.length - skip + 1 := by
  simp [line]

theorem Whole.cons {r : List UInt8} (h : next read fuel format s = .ok (some r, s'))
    (hrest : Whole read fuel format s' rs) :
    Whole read fuel format s (r :: rs) := by
  obtain ⟨s₁, s₂, hrun, hend⟩ := hrest
  exact ⟨s₁, s₂, .cons h hrun, hend⟩

theorem Whole.same {R : σ × ℕ → σ × ℕ → Prop}
    (h : Agrees R (next read fuel format) (next read fuel format)) {t : σ × ℕ} (hst : R s t)
    (hs : Whole read fuel format s rs) :
    Whole read fuel format t rs := by
  obtain ⟨s₁, s₂, hrun, hend⟩ := hs
  induction hrun generalizing t with
  | nil s =>
    obtain ⟨t₂, ht, -⟩ := (h s t hst).eq_ok hend
    exact ⟨t, t₂, .nil t, ht⟩
  | cons hnext hrest ih =>
    obtain ⟨t', ht, hst'⟩ := (h _ t hst).eq_ok hnext
    exact .cons ht (ih hst' hend)

theorem Run.inside {I : σ → Prop} {pos : σ → ℕ} (ht : Tracks read I pos size) (hfuel : size < fuel)
    (hs : In I pos s) (h : Run read fuel format s rs s') :
    In I pos s' ∧ s.2 + rs.length ≤ s'.2 := by
  induction h with
  | nil s => exact ⟨hs, le_rfl⟩
  | cons hnext hrest ih =>
    obtain ⟨hin, -, hmove⟩ := (ends_next ht format hs hfuel).1 _ _ hnext
    obtain ⟨hin', hle⟩ := ih hin
    have := hmove (by simp)
    exact ⟨hin', by rw [length_cons]; omega⟩

theorem Whole.length_le {I : σ → Prop} {pos : σ → ℕ} (ht : Tracks read I pos size)
    (hfuel : size < fuel) (hs : In I pos s) (h : Whole read fuel format s rs) :
    s.2 + rs.length ≤ size := by
  obtain ⟨s₁, s₂, hrun, -⟩ := h
  obtain ⟨hin, hle⟩ := hrun.inside ht hfuel hs
  have := ht.le hin.1
  rw [← hin.2] at this
  omega

theorem whole_of_collect (h : collect read fuel format n s = .ok (rs, s')) :
    Whole read fuel format s rs := by
  induction n generalizing s rs with
  | zero => cases h
  | succ n ih =>
    obtain ⟨r, s₁, hnext, hrest⟩ := bind_ok.mp h
    cases r with
    | none =>
      cases hrest
      exact ⟨s, s', .nil s, hnext⟩
    | some r =>
      obtain ⟨rs', s₂, hcollect, hpure⟩ := bind_ok.mp hrest
      cases hpure
      exact .cons hnext (ih hcollect)

theorem whole_of_scan (h : scan read fuel format n size marks s = .ok (view, s')) :
    ∃ rs, Whole read fuel format s rs := by
  induction n generalizing s size marks with
  | zero => cases h
  | succ n ih =>
    obtain ⟨start, s₀, hpos, h⟩ := bind_ok.mp h
    cases hpos
    obtain ⟨r, s₁, hnext, hrest⟩ := bind_ok.mp h
    cases r with
    | none => exact ⟨[], s, s₁, .nil s, hnext⟩
    | some r =>
      obtain ⟨rs, hwhole⟩ := ih hrest
      exact ⟨r :: rs, .cons hnext hwhole⟩

theorem collect_of_run (h : Whole read fuel format s rs) (hn : rs.length < n) :
    ∃ s', collect read fuel format n s = .ok (rs, s') := by
  obtain ⟨s₁, s₂, hrun, hend⟩ := h
  refine ⟨s₂, ?_⟩
  induction hrun generalizing n with
  | nil s =>
    obtain ⟨n, rfl⟩ : ∃ k, n = k + 1 := ⟨n - 1, by omega⟩
    rw [collect, run_bind hend]
    rfl
  | cons hnext hrest ih =>
    obtain ⟨n, rfl⟩ : ∃ k, n = k + 1 := ⟨n - 1, by omega⟩
    rw [length_cons] at hn
    rw [collect, run_bind hnext]
    simp only
    rw [run_bind (ih (by omega) hend)]
    rfl

/-! ### Marks -/

/-- Marks go up. -/
def Rising (marks : List (ℕ × ℕ)) : Prop := marks.Pairwise fun a b => a.1 < b.1

/-- A mark is at the start of a record, or at the end: the records before it make the
    text up to it, and those after it are read from it on. -/
def Marks (read : Stream.Reader ε σ UInt8) (fuel : ℕ) (format : Format) (s : σ × ℕ)
    (rs : List (List UInt8)) (size : ℕ) (m : ℕ × ℕ) : Prop :=
  ∃ pre post s', rs = pre ++ post ∧ Run read fuel format s pre s' ∧
    Whole read fuel format s' post ∧ m = (size + (text format pre).length, s'.2)

theorem Marks.cons {r : List UInt8} {m : ℕ × ℕ} (h : next read fuel format s = .ok (some r, s'))
    (hm : Marks read fuel format s' rs (size + (r.length - format.controlSize) + 1) m) :
    Marks read fuel format s (r :: rs) size m := by
  obtain ⟨pre, post, t, rfl, hpre, hpost, rfl⟩ := hm
  refine ⟨r :: pre, post, t, rfl, .cons h hpre, hpost, ?_⟩
  rw [text_cons, length_append, length_line]
  congr 1
  omega

theorem Rising.push (h : Rising marks) {start : ℕ}
    (hfar : size - (marks.getLast?.map Prod.fst).getD 0 ≥ MARK_EVERY) :
    Rising (marks ++ [(size, start)]) := by
  refine pairwise_append.mpr ⟨h, pairwise_singleton _ _, fun m hm b hb => ?_⟩
  rw [mem_singleton.mp hb]
  rcases eq_nil_or_concat marks with rfl | ⟨init, last, rfl⟩
  · cases hm
  · rw [concat_eq_append] at *
    have hM : MARK_EVERY = 65536 := rfl
    rw [List.getLast?_append, List.getLast?_singleton, hM] at hfar
    simp only [Option.some_or, Option.map_some, Option.getD_some] at hfar
    rcases mem_append.mp hm with hm | hm
    · have := (pairwise_append.mp h).2.2 m hm last (by simp)
      simp only at this ⊢
      omega
    · rw [mem_singleton.mp hm]
      simp only
      omega

theorem scan_of_run (h : Whole read fuel format s rs) (hn : rs.length < n) (hmarks : Rising marks) (size : ℕ) :
    ∃ view s', scan read fuel format n size marks s = .ok (view, s') ∧
      view.size = size + (text format rs).length ∧ Rising view.marks ∧
      ∃ more, view.marks = marks ++ more ∧ ∀ m ∈ more, Marks read fuel format s rs size m := by
  obtain ⟨s₁, s₂, hrun, hend⟩ := h
  induction hrun generalizing n size marks with
  | nil s =>
    obtain ⟨n, rfl⟩ : ∃ k, n = k + 1 := ⟨n - 1, by omega⟩
    refine ⟨⟨size, marks⟩, s₂, ?_, rfl, hmarks, [], by simp, by simp⟩
    rw [scan, run_bind (show position s = .ok (s.2, s) from rfl), run_bind hend]
    rfl
  | @cons s s' s'' r rs hnext hrest ih =>
    obtain ⟨n, rfl⟩ : ∃ k, n = k + 1 := ⟨n - 1, by omega⟩
    rw [length_cons] at hn
    rw [scan, run_bind (show position s = .ok (s.2, s) from rfl), run_bind hnext]
    simp only
    have hlt : rs.length < n := by omega
    have hwhole : Whole read fuel format s (r :: rs) := ⟨_, _, .cons hnext hrest, hend⟩
    split_ifs with hfar
    · have hpush : Rising (marks ++ [(size, s.2)]) := hmarks.push hfar
      obtain ⟨view, t, hok, hsize, hrise, more, hmore, hall⟩ :=
        ih hlt hpush (size + (r.length - format.controlSize) + 1) hend
      refine ⟨view, t, hok, ?_, hrise, (size, s.2) :: more, by simp [hmore], ?_⟩
      · rw [hsize, text_cons, length_append, length_line]
        omega
      · intro m hm
        rcases mem_cons.mp hm with rfl | hm
        · exact ⟨[], r :: rs, s, rfl, .nil s, hwhole, rfl⟩
        · exact (hall m hm).cons hnext
    · obtain ⟨view, t, hok, hsize, hrise, more, hmore, hall⟩ :=
        ih hlt hmarks (size + (r.length - format.controlSize) + 1) hend
      refine ⟨view, t, hok, ?_, hrise, more, hmore, fun m hm => (hall m hm).cons hnext⟩
      rw [hsize, text_cons, length_append, length_line]
      omega

theorem put_line {pre l buf : List UInt8} {offset : ℕ} (h : pre.length < offset + buf.length)
    (hmeet : max pre.length offset < min (pre.length + l.length) (offset + buf.length)) :
    put (filled pre offset buf) (max pre.length offset - offset)
      ((l.drop (max pre.length offset - pre.length)).take
        (min (pre.length + l.length) (offset + buf.length) - max pre.length offset)) =
      filled (pre ++ l) offset buf := by
  rw [← Window.put_filled h, window, show max pre.length offset - offset = pre.length - offset by omega,
    show max pre.length offset - pre.length = offset - pre.length by omega]
  congr 1
  rw [take_eq_take_iff, length_drop]
  omega

theorem readLines_of_run {k : ℕ} (h : Whole read fuel format s rs) (hk : rs.length < k)
    (offset : ℕ) (pre buf : List UInt8) :
    ∃ s', readLines read fuel format offset (offset + buf.length) k pre.length
        (window pre offset buf.length).length (filled pre offset buf) s =
      .ok (((window (pre ++ text format rs) offset buf.length).length,
        filled (pre ++ text format rs) offset buf), s') := by
  obtain ⟨s₁, s₂, hrun, hend⟩ := h
  induction hrun generalizing k pre with
  | nil s =>
    obtain ⟨k, rfl⟩ : ∃ i, k = i + 1 := ⟨k - 1, by omega⟩
    rw [readLines, text, flatMap_nil, append_nil]
    split_ifs
    · rw [run_bind hend]
      exact ⟨s₂, rfl⟩
    · exact ⟨s, rfl⟩
  | @cons s s' s'' r rs hnext hrest ih =>
    obtain ⟨k, rfl⟩ : ∃ i, k = i + 1 := ⟨k - 1, by omega⟩
    rw [length_cons] at hk
    rw [readLines]
    split_ifs with hpos
    · rw [run_bind hnext]
      simp only
      obtain ⟨t, hok⟩ := ih (Nat.lt_of_succ_lt_succ hk) (pre ++ line format.controlSize r) hend
      rw [length_append, append_assoc, ← text_cons] at hok
      refine ⟨t, ?_⟩
      rw [← hok]
      split_ifs with hmeet
      · rw [put_line hpos hmeet]
        congr 1
        rw [Window.length_window, length_append]
        omega
      · have hsame : window (pre ++ line format.controlSize r) offset buf.length =
            window pre offset buf.length := by
          rcases Nat.eq_zero_or_pos buf.length with h0 | h0
          · rw [h0, window, window, take_zero, take_zero]
          · have hline := length_line format.controlSize r
            exact Window.window_append_of_before (by omega)
        rw [filled, filled, hsame]
    · refine ⟨s, ?_⟩
      have hsame : window (pre ++ text format (r :: rs)) offset buf.length =
          window pre offset buf.length := Window.window_append_of_le _ (by omega)
      rw [filled, filled, hsame]
      rfl

end Records

/-! ## A file's bytes -/

@[simp] theorem length_bytesOf (bs : List Block) : (bytesOf bs).length = bs.length * BLOCK := by
  induction bs with
  | nil => simp [bytesOf]
  | cons b bs ih =>
    rw [bytesOf, flatMap_cons, length_append, Field.length_bytes, length_cons,
      Nat.succ_mul, Nat.add_comm]
    exact congrArg (· + BLOCK) ih

theorem bytesOf_append (as bs : List Block) : bytesOf (as ++ bs) = bytesOf as ++ bytesOf bs :=
  flatMap_append

theorem bytesOf_drop (bs : List Block) (n : ℕ) :
    bytesOf (bs.drop n) = (bytesOf bs).drop (n * BLOCK) := by
  rcases Nat.le_total n bs.length with h | h
  · have hlen : (bytesOf (bs.take n)).length = n * BLOCK := by
      rw [length_bytesOf, length_take, min_eq_left h]
    conv_rhs => rw [← take_append_drop n bs, bytesOf_append, drop_left' hlen]
  · rw [drop_eq_nil_of_le h, drop_eq_nil_of_le]
    · rfl
    · rw [length_bytesOf]
      exact Nat.mul_le_mul_right _ h

theorem bytesOf_take (bs : List Block) (n : ℕ) :
    bytesOf (bs.take n) = (bytesOf bs).take (n * BLOCK) := by
  rcases Nat.le_total n bs.length with h | h
  · have hlen : (bytesOf (bs.take n)).length = n * BLOCK := by
      rw [length_bytesOf, length_take, min_eq_left h]
    conv_rhs => rw [← take_append_drop n bs, bytesOf_append, take_left' hlen]
  · rw [take_of_length_le h, take_of_length_le]
    rw [length_bytesOf]
    exact Nat.mul_le_mul_right _ h

namespace FileReader

variable {v : Volume} {fid : Fid} {map : List Run} {eof : ℕ}

def data (v : Volume) (map : List Run) : List UInt8 := bytesOf ((mapBlocks map).map v.dev.blocks)

theorem length_data (v : Volume) (map : List Run) : (data v map).length = mapSize map * BLOCK := by
  rw [data, length_bytesOf, length_map, length_mapBlocks]

/-- A reader of the file: it holds a part of its bytes, and is not past them. -/
structure Good (v : Volume) (fid : Fid) (map : List Run) (eof : ℕ) (r : FileReader) : Prop where
  ofFile : r.fid = fid
  ofEof : r.eof = eof
  beforeEof : r.pos ≤ eof
  inData : r.pos ≤ (data v map).length
  bufIn : r.bufAt + r.buf.length ≤ (data v map).length
  buf : r.buf = window (data v map) r.bufAt r.buf.length

variable (hm : (Op.fileMap fid v).result = .ok map) {r r' : FileReader}
include hm

theorem readBlocks_data {first blocks : ℕ} :
    (∀ bs, (Op.readBlocks fid (first + 1) (blocks * BLOCK) v).result = .ok bs → 0 < blocks →
      first + blocks ≤ mapSize map ∧
      bytesOf bs = window (data v map) (first * BLOCK) (blocks * BLOCK)) ∧
    (first + blocks ≤ mapSize map →
      ∃ bs, (Op.readBlocks fid (first + 1) (blocks * BLOCK) v).result = .ok bs) := by
  have hB : 0 < BLOCK := by decide
  rw [Op.result_readBlocks hm]
  refine ⟨fun bs h hpos => ?_, fun h => ?_⟩
  · cases hp : pieces map (first + 1) (blocks * BLOCK) with
    | error e =>
      rw [hp] at h
      cases h
    | ok ls =>
      rw [hp] at h
      cases h
      obtain ⟨-, -, hle, rfl⟩ := pieces_ok.mp hp
      rw [Nat.mul_div_cancel _ hB] at hle ⊢
      refine ⟨by omega, ?_⟩
      rw [map_take, map_drop, bytesOf_take, bytesOf_drop, Nat.add_sub_cancel]
      rfl
  · have hp : pieces map (first + 1) (blocks * BLOCK) =
        .ok (((mapBlocks map).drop (first + 1 - 1)).take (blocks * BLOCK / BLOCK)) := by
      refine pieces_ok.mpr ⟨Nat.mul_mod_left _ _, Nat.succ_pos _, ?_, rfl⟩
      rw [Nat.mul_div_cancel _ hB]
      omega
    rw [hp]
    exact ⟨_, rfl⟩

theorem fill_ok (hr : Good v fid map eof r) (hpos : r.pos < eof) (h : r.fill v = .ok r') :
    Good v fid map eof r' ∧ r'.pos = r.pos ∧ r'.bufAt ≤ r.pos ∧
      r.pos < r'.bufAt + r'.buf.length := by
  have hB : BLOCK = 512 := rfl
  have hC : CHUNK = 64 := rfl
  unfold fill at h
  split_ifs at h with hout
  · obtain ⟨bs, hbs, hok⟩ := Exec.bind_eq_ok.mp h
    cases hok
    rw [hr.ofFile, hr.ofEof] at hbs
    have hblocks : 0 < min ((eof - r.pos / BLOCK * BLOCK + BLOCK - 1) / BLOCK) CHUNK := by
      rw [hB, hC]
      omega
    obtain ⟨hle, hbytes⟩ := (readBlocks_data hm).1 bs hbs hblocks
    have hlen : (bytesOf bs).length =
        min ((eof - r.pos / BLOCK * BLOCK + BLOCK - 1) / BLOCK) CHUNK * BLOCK := by
      rw [hbytes, Window.length_window, length_data]
      refine min_eq_left ?_
      rw [hB] at hle ⊢
      omega
    refine ⟨⟨hr.ofFile, hr.ofEof, hr.beforeEof, hr.inData, ?_, ?_⟩, rfl, ?_, ?_⟩
    · dsimp only
      rw [hlen, length_data]
      rw [hB] at hle ⊢
      omega
    · rw [hlen]
      exact hbytes
    · exact Nat.div_mul_le_self _ _
    · dsimp only
      rw [hlen]
      rw [hB, hC] at *
      omega
  · cases h
    exact ⟨hr, rfl, by omega, by omega⟩

theorem fill_exists (hr : Good v fid map eof r) (heof : eof ≤ (data v map).length) :
    ∃ r', r.fill v = .ok r' := by
  have hB : BLOCK = 512 := rfl
  unfold fill
  split_ifs with hout
  · rw [length_data, hB] at heof
    rw [hr.ofFile, hr.ofEof]
    have hle : r.pos / BLOCK + min ((eof - r.pos / BLOCK * BLOCK + BLOCK - 1) / BLOCK) CHUNK ≤
        mapSize map := by
      have hpos := hr.beforeEof
      rw [hB]
      omega
    obtain ⟨bs, hbs⟩ := (readBlocks_data hm).2 hle
    simp only
    rw [hbs]
    exact ⟨_, rfl⟩
  · exact ⟨r, rfl⟩

theorem read_ok (hr : Good v fid map eof r) {x : List UInt8} (h : read v n r = .ok (x, r')) :
    Good v fid map eof r' ∧ r'.pos = r.pos + x.length ∧ x.length ≤ n ∧
      x = window ((data v map).take eof) r.pos x.length ∧
      (0 < n → r.pos < eof → 0 < x.length) := by
  unfold read at h
  split_ifs at h with hstop
  · cases h
    rw [hr.ofEof] at hstop
    refine ⟨hr, rfl, Nat.zero_le n, rfl, fun hn hpos => ?_⟩
    rcases hstop with hstop | hstop <;> omega
  · rw [hr.ofEof, not_or, not_le] at hstop
    obtain ⟨f, hfill, hok⟩ := Exec.bind_eq_ok.mp h
    obtain ⟨hf, hpos, hstart, hin⟩ := fill_ok hm hr hstop.1 hfill
    cases hok
    rw [hf.ofEof, hpos]
    have hbufIn := hf.bufIn
    have hlen : ((f.buf.drop (r.pos - f.bufAt)).take
        (min (min n (f.buf.length - (r.pos - f.bufAt))) (eof - r.pos))).length =
        min (min n (f.buf.length - (r.pos - f.bufAt))) (eof - r.pos) := by
      rw [length_take, length_drop]
      omega
    rw [hlen]
    refine ⟨⟨hf.ofFile, rfl, ?_, ?_, hf.bufIn, hf.buf⟩, rfl, by omega, ?_, fun hn hlt => by omega⟩
    · dsimp only
      omega
    · dsimp only
      omega
    · rw [hf.buf]
      simp only [window, drop_take, take_take, drop_drop,
        show f.bufAt + (r.pos - f.bufAt) = r.pos by omega]
      congr 1
      simp only [length_take, length_drop]
      omega

theorem tracks : Tracks (read v) (Good v fid map eof) pos eof where
  le hr := hr.beforeEof
  step hr h := by
    obtain ⟨hr', hpos, hlen, -⟩ := read_ok hm hr h
    exact ⟨hr', hpos, hlen⟩
  stop hr h := by
    obtain ⟨-, -, -, -, hmove⟩ := read_ok hm hr h
    by_contra hne
    exact absurd (hmove Nat.one_pos (lt_of_le_of_ne hr.beforeEof hne)) (by simp)

/-- The bytes left to a reader. -/
def Left (v : Volume) (fid : Fid) (map : List Run) (eof : ℕ) (r : FileReader) (d : List UInt8) :
    Prop :=
  Good v fid map eof r ∧ d = ((data v map).take eof).drop r.pos

theorem lawful (heof : eof ≤ (data v map).length) : Lawful (read v) (Left v fid map eof) := by
  rintro n r d ⟨hr, rfl⟩
  obtain ⟨x, r', hread⟩ : ∃ x r', read v n r = .ok (x, r') := by
    unfold read
    split_ifs
    · exact ⟨_, _, rfl⟩
    · obtain ⟨f, hf⟩ := fill_exists hm hr heof
      rw [hf]
      exact ⟨_, _, rfl⟩
  obtain ⟨hr', hpos, hlen, hx, hmove⟩ := read_ok hm hr hread
  refine ⟨x.length, r', ?_, ⟨hr', ?_⟩, hlen, fun hn hd => hmove hn ?_⟩
  · rw [hread]
    congr 2
  · rw [drop_drop, hpos]
  · by_contra hge
    refine hd (drop_eq_nil_of_le ?_)
    rw [length_take]
    omega

end FileReader

/-! ## The text of a file -/

namespace Volume

open FileReader (Good Left data)
open Records (In Rising Run Whole text)

variable {v : Volume} {fid : Fid} {map : List Run} {format : Format} {r : FileReader}

theorem fileMap_of_stat {info : FileInfo} (h : v.stat fid = .ok info) :
    ∃ map, (Op.fileMap fid v).result = .ok map ∧ info.allocated = mapSize map := by
  have hstat : (Op.stat fid v).result = .ok info := by
    unfold stat at h
    cases hs : (Op.stat fid v).result with
    | error e =>
      rw [hs] at h
      cases h
    | ok i =>
      rw [hs] at h
      cases h
      rfl
  obtain ⟨hs, hhs, hrest⟩ := (Op.looks_headers fid).bind_ok.mp hstat
  obtain ⟨map, hmap, hinfo⟩ := (Op.looks_runsOf hs).bind_ok.mp hrest
  refine ⟨map, Op.result_fileMap hhs hmap, ?_⟩
  cases hs with
  | nil => cases hinfo
  | cons p hs =>
    cases hinfo
    rfl

theorem records_ok (h : v.records fid = .ok (format, r)) :
    v.reader fid = .ok r ∧ r.pos = 0 ∧
      ∃ map, (Op.fileMap fid v).result = .ok map ∧ Good v fid map r.eof r := by
  unfold records at h
  obtain ⟨info, hinfo, h⟩ := Exec.bind_eq_ok.mp h
  obtain ⟨map, hm, -⟩ := fileMap_of_stat hinfo
  cases hf : Format.of info.record with
  | none =>
    rw [hf] at h
    cases h
  | some f =>
    rw [hf] at h
    obtain ⟨r', hr, h⟩ := Exec.bind_eq_ok.mp h
    cases h
    have hread : v.reader fid = .ok ⟨fid, 0, info.record.eofBytes, [], 0⟩ := by
      rw [reader, hinfo]
      rfl
    rw [hread] at hr
    cases hr
    exact ⟨hread, rfl, map, hm, ⟨rfl, rfl, Nat.zero_le _, Nat.zero_le _, Nat.zero_le _, rfl⟩⟩

theorem run_ok {α : Type} {x : Records.Reading FileReader Error α} {pos : ℕ} {a : α} :
    run x r pos = .ok a ↔ ∃ s, x (r, pos) = .ok (a, s) := by
  unfold run
  cases hx : x (r, pos) with
  | error e => simp
  | ok p => simp [Prod.ext_iff]

section whole
variable (hm : (Op.fileMap fid v).result = .ok map) {rs : List (List UInt8)}
include hm

theorem eof_le_of_whole {s : FileReader × ℕ} (hs : In (Good v fid map r.eof) pos s)
    (h : Whole (read v) (r.eof + 1) format s rs) : r.eof ≤ (data v map).length := by
  obtain ⟨s₁, s₂, hrun, hend⟩ := h
  have ht : Tracks (read v) (Good v fid map r.eof) pos r.eof :=
    tracks hm
  obtain ⟨hin, -⟩ := hrun.inside ht (Nat.lt_succ_self _) hs
  obtain ⟨hin', hstop, -⟩ := (ends_next ht format hin (Nat.lt_succ_self _)).1 _ _ hend
  have hpos := hstop rfl
  rw [hin'.2] at hpos
  rw [← hpos]
  exact hin'.1.inData

theorem whole_seekTo (hr : Good v fid map r.eof r) (heof : r.eof ≤ (data v map).length)
    {s : FileReader × ℕ} (hs : In (Good v fid map r.eof) pos s) (h : Whole (read v) (r.eof + 1) format s rs) :
    In (Good v fid map r.eof) pos (r.seekTo s.2, s.2) ∧
      Whole (read v) (r.eof + 1) format (r.seekTo s.2, s.2) rs := by
  have hpos : (r.seekTo s.2).pos = s.2 := min_eq_left (hs.2.trans_le hs.1.beforeEof)
  have hgood : Good v fid map r.eof (r.seekTo s.2) :=
    ⟨hr.ofFile, hr.ofEof, by rw [hpos, hs.2]; exact hs.1.beforeEof,
      by rw [hpos, hs.2]; exact hs.1.inData, hr.bufIn, hr.buf⟩
  refine ⟨⟨hgood, hpos.symm⟩, h.same (agrees_next (lawful hm heof) _ _).join
    ⟨(((data v map).take r.eof).drop s.2, s.2), ⟨⟨hs.1, by rw [hs.2]⟩, rfl⟩, ⟨⟨hgood, ?_⟩, rfl⟩⟩⟩
  rw [hpos]

end whole

theorem exists_mark {α : Type} (p : α → Bool) {a : α} (h : p a = true) (l : List α) :
    ∃ m ∈ a :: l, p m = true ∧ (a :: l)[((a :: l).takeWhile p).length - 1]? = some m := by
  obtain ⟨rest, hrest⟩ : (a :: l).takeWhile p <+: a :: l := takeWhile_prefix p
  have hne : (a :: l).takeWhile p ≠ [] := by
    rw [takeWhile_cons_of_pos h]
    simp
  obtain ⟨init, m, hm⟩ := (eq_nil_or_concat _).resolve_left hne
  rw [concat_eq_append] at hm
  have hmem : m ∈ (a :: l).takeWhile p := by
    rw [hm]
    simp
  refine ⟨m, takeWhile_subset p hmem, mem_takeWhile_imp hmem, ?_⟩
  rw [hm] at hrest ⊢
  rw [← hrest]
  simp

theorem whole_of_copyOut {out : List UInt8} (h : v.copyOutLines fid = .ok out) :
    ∃ format r rs, v.records fid = .ok (format, r) ∧
      Whole (read v) (r.eof + 1) format (r, 0) rs ∧ out = text format rs := by
  unfold copyOutLines at h
  obtain ⟨⟨format, r⟩, hrec, h⟩ := Exec.bind_eq_ok.mp h
  obtain ⟨rs, hrun, h⟩ := Exec.bind_eq_ok.mp h
  cases h
  obtain ⟨s, hcollect⟩ := run_ok.mp hrun
  exact ⟨format, r, rs, hrec, whole_of_collect hcollect, rfl⟩

theorem whole_of_textView (h : v.textView fid = .ok view) :
    ∃ format r rs, v.records fid = .ok (format, r) ∧
      Whole (read v) (r.eof + 1) format (r, 0) rs := by
  unfold textView at h
  obtain ⟨⟨format, r⟩, hrec, h⟩ := Exec.bind_eq_ok.mp h
  obtain ⟨s, hscan⟩ := run_ok.mp h
  obtain ⟨rs, hwhole⟩ := whole_of_scan hscan
  exact ⟨format, r, rs, hrec, hwhole⟩

section text
variable {rs : List (List UInt8)} (hrec : v.records fid = .ok (format, r))
  (hwhole : Whole (read v) (r.eof + 1) format (r, 0) rs)
include hrec hwhole

theorem copyOutLines_of_whole : v.copyOutLines fid = .ok (text format rs) := by
  obtain ⟨-, h0, map, hm, hgood⟩ := records_ok hrec
  have hlen := hwhole.length_le (tracks hm) (Nat.lt_succ_self _) ⟨hgood, h0.symm⟩
  obtain ⟨s, hcollect⟩ := collect_of_run hwhole (n := r.eof + 1) (by omega)
  rw [copyOutLines, hrec]
  change (run _ r 0 >>= fun rs => Except.ok (text format rs)) = _
  rw [run_ok.mpr ⟨s, hcollect⟩]
  rfl

theorem textView_of_whole : ∃ view more, v.textView fid = .ok view ∧
    view.size = (text format rs).length ∧ Rising view.marks ∧ view.marks = (0, 0) :: more ∧
    ∀ m ∈ view.marks, Records.Marks (read v) (r.eof + 1) format (r, 0) rs 0 m := by
  obtain ⟨-, h0, map, hm, hgood⟩ := records_ok hrec
  have hlen := hwhole.length_le (tracks hm) (Nat.lt_succ_self _) ⟨hgood, h0.symm⟩
  have hlt : rs.length < r.eof + 1 := by omega
  have hone : Rising [(0, 0)] := pairwise_singleton _ _
  obtain ⟨view, s, hscan, hsize, hrise, more, hmarks, hall⟩ := scan_of_run hwhole hlt hone 0
  refine ⟨view, more, ?_, hsize.trans (Nat.zero_add _), hrise, hmarks, fun m hmem => ?_⟩
  · rw [textView, hrec]
    exact run_ok.mpr ⟨s, hscan⟩
  · rw [hmarks] at hmem
    rcases mem_cons.mp hmem with rfl | hmem
    · exact ⟨[], rs, (r, 0), rfl, .nil _, hwhole, rfl⟩
    · exact hall m hmem

theorem readText_of_whole {more : List (ℕ × ℕ)} (hmarks : view.marks = (0, 0) :: more)
    (hall : ∀ m ∈ view.marks, Records.Marks (read v) (r.eof + 1) format (r, 0) rs 0 m)
    (offset : ℕ) (buf : List UInt8) :
    v.readText fid view offset buf =
      if offset + buf.length < 2 ^ 64 then
        .ok ((window (text format rs) offset buf.length).length, filled (text format rs) offset buf)
      else .error (.ods .panic) := by
  obtain ⟨hreader, h0, map, hm, hgood⟩ := records_ok hrec
  have ht : Tracks (read v) (Good v fid map r.eof) pos r.eof :=
    tracks hm
  have hin : In (Good v fid map r.eof) pos (r, 0) := ⟨hgood, h0.symm⟩
  obtain ⟨m, hmem, hle, hget⟩ := exists_mark (fun m : ℕ × ℕ => decide (m.1 ≤ offset))
    (decide_eq_true (Nat.zero_le offset) : decide ((0, 0).1 ≤ offset) = true) more
  rw [← hmarks] at hmem hget
  obtain ⟨pre, post, s, rfl, hpre, hpost, rfl⟩ := hall m hmem
  have hin' := (hpre.inside ht (Nat.lt_succ_self _) hin).1
  obtain ⟨hseek, hpost⟩ := whole_seekTo hm hgood (eof_le_of_whole hm hin hwhole) hin' hpost
  have hlen := hpost.length_le ht (Nat.lt_succ_self _) hseek
  have hlt : post.length < r.eof + 1 := by omega
  rw [decide_eq_true_eq, Nat.zero_add] at hle
  -- nothing of the text before the mark is in the window
  have hnil : window (text format pre) offset buf.length = [] := by
    rw [window, drop_eq_nil_of_le hle, take_nil]
  obtain ⟨s', hlines⟩ := readLines_of_run hpost hlt offset (text format pre) buf
  rw [filled, hnil, ← text_append] at hlines
  have hread : v.readText fid view offset buf =
      if offset + buf.length ≥ 2 ^ 64 then .error (.ods .panic)
      else run (readLines (read v) (r.eof + 1) format offset
        (offset + buf.length) (r.eof + 1) (text format pre).length 0 buf) (r.seekTo s.2) s.2 := by
    unfold readText
    simp only [hget, hrec, hreader]
    rw [Nat.zero_add]
    rfl
  rw [hread]
  split_ifs with hover hsmall hsmall
  · omega
  · rfl
  · exact run_ok.mpr ⟨s', hlines⟩
  · omega

end text

theorem records_not_stuck : v.records fid ≠ .error (.record .stuck) := by
  intro h
  unfold records at h
  cases hs : v.stat fid with
  | error e =>
    rw [hs] at h
    unfold stat at hs
    cases hr : (Op.stat fid v).result with
    | error e' =>
      rw [hr] at hs
      cases hs
      cases h
    | ok i =>
      rw [hr] at hs
      cases hs
  | ok info =>
    rw [reader, hs] at h
    cases hf : Format.of info.record with
    | none => simp [Bind.bind, Except.bind, hf] at h
    | some format => simp [Bind.bind, Except.bind, hf] at h

/-- The model's bounds are never met: a file is copied out, or the error is one of the
    code's. -/
theorem copyOutLines_not_stuck : v.copyOutLines fid ≠ .error (.record .stuck) := by
  intro h
  unfold copyOutLines at h
  cases hrec : v.records fid with
  | error e =>
    rw [hrec] at h
    cases h
    exact records_not_stuck hrec
  | ok p =>
    obtain ⟨-, h0, map, hm, hgood⟩ := records_ok hrec
    have hin : In (Good v fid map p.2.eof) pos (p.2, 0) := ⟨hgood, h0.symm⟩
    have hlt : p.2.eof < p.2.eof + 1 := Nat.lt_succ_self _
    have hends := collect_not_stuck (tracks hm) p.1 hin hlt
      (by rwa [Nat.zero_add])
    rw [hrec] at h
    change (run (collect (read v) (p.2.eof + 1) p.1 (p.2.eof + 1)) p.2 0 >>=
      fun rs => Except.ok (text p.1 rs)) = _ at h
    unfold run at h
    cases hc : collect (read v) (p.2.eof + 1) p.1 (p.2.eof + 1) (p.2, 0) with
    | error e =>
      rw [hc] at h
      cases h
      exact hends.2 _ hc rfl
    | ok q =>
      rw [hc] at h
      cases h

/-- **Text is read at an offset as it is copied out.**  A file has a text view if and only
    if its records can be copied out as lines.  A read at an offset gives that window of
    these lines, and reads of two pieces the piece they make together, unless the end of
    the window is past the largest offset there is, where the sum panics. -/
theorem readText_window (v : Volume) (fid : Fid) :
    ((∃ view, v.textView fid = .ok view) ↔ ∃ out, v.copyOutLines fid = .ok out) ∧
    ∀ view out, v.textView fid = .ok view → v.copyOutLines fid = .ok out →
      view.size = out.length ∧ Rising view.marks ∧
      (∀ offset buf, v.readText fid view offset buf =
        .ok ((window out offset buf.length).length, filled out offset buf) ↔
        offset + buf.length < 2 ^ 64) ∧
      (∀ offset buf, ¬ offset + buf.length < 2 ^ 64 →
        v.readText fid view offset buf = .error (.ods .panic)) ∧
      ∀ offset a b m n c d, v.readText fid view offset a = .ok (m, c) →
        v.readText fid view (offset + a.length) b = .ok (n, d) →
        ∃ e, v.readText fid view offset (a ++ b) = .ok (m + n, e) ∧
          e.take (m + n) = c.take m ++ d.take n := by
  refine ⟨⟨?_, ?_⟩, fun view out hview hout => ?_⟩
  · rintro ⟨view, hview⟩
    obtain ⟨format, r, rs, hrec, hwhole⟩ := whole_of_textView hview
    exact ⟨_, copyOutLines_of_whole hrec hwhole⟩
  · rintro ⟨out, hout⟩
    obtain ⟨format, r, rs, hrec, hwhole, -⟩ := whole_of_copyOut hout
    obtain ⟨view, -, hview, -⟩ := textView_of_whole hrec hwhole
    exact ⟨view, hview⟩
  · obtain ⟨format, r, rs, hrec, hwhole, rfl⟩ := whole_of_copyOut hout
    obtain ⟨view', more, hview', hsize, hrise, hmarks, hall⟩ := textView_of_whole hrec hwhole
    obtain rfl : view' = view := by
      rw [hview] at hview'
      cases hview'
      rfl
    have hread := readText_of_whole hrec hwhole hmarks hall
    have hok : ∀ {offset : ℕ} {buf : List UInt8} {n : ℕ} {c : List UInt8},
        v.readText fid view' offset buf = .ok (n, c) → offset + buf.length < 2 ^ 64 ∧
          n = (window (text format rs) offset buf.length).length ∧
          c.take n = window (text format rs) offset buf.length := by
      intro offset buf n c h
      rw [hread] at h
      split_ifs at h with hlt
      cases h
      exact ⟨hlt, rfl, Window.take_filled _ _ _⟩
    refine ⟨hsize, hrise, fun offset buf => ?_, fun offset buf hover => ?_, ?_⟩
    · refine ⟨fun h => (hok h).1, fun h => ?_⟩
      rw [hread, if_pos h]
    · rw [hread, if_neg hover]
    · intro offset a b m n c d ha hb
      obtain ⟨-, rfl, hc⟩ := hok ha
      obtain ⟨hlt, rfl, hd⟩ := hok hb
      have hlen : (a ++ b).length = a.length + b.length := length_append
      have hsum : (window (text format rs) offset (a ++ b).length).length =
          (window (text format rs) offset a.length).length +
            (window (text format rs) (offset + a.length) b.length).length := by
        rw [hlen, Window.window_add, length_append]
      refine ⟨filled (text format rs) offset (a ++ b), ?_, ?_⟩
      · rw [hread, if_pos (by omega), hsum]
      · rw [hc, hd, ← hsum, Window.take_filled, hlen, Window.window_add]

/-- A file of the records "hi", "" and "x", in a block at 44. -/
def textFiles : Volume :=
  let record := { RecordAttrs.default with
    rtype := rfm.VAR
    hiblk := 4
    efblk := 1
    ffbyte := 10 }
  { smallFiles with
    dev := { smallFiles.dev with
      blocks := fun l =>
        if l = 10 then (((sampleHeader sampleFid [⟨44, 4⟩]).setRecordAttrs record).updateChecksum).raw
        else if l = 44 then BitVec.ofNat 4096 (Field.ofBytes [2, 0, 104, 105, 0, 0, 1, 0, 120, 0])
        else smallFiles.dev.blocks l } }

theorem textFiles_view : textFiles.textView sampleFid = .ok ⟨6, [(0, 0)]⟩ := by decide +kernel

theorem textFiles_text : textFiles.copyOutLines sampleFid = .ok [104, 105, 10, 10, 120, 10] := by
  decide +kernel

/-- Three bytes from the second on. -/
theorem readText_window_small : textFiles.readText sampleFid ⟨6, [(0, 0)]⟩ 1 [0, 0, 0] = .ok (3, [105, 10, 10]) :=
  (((readText_window textFiles sampleFid).2 _ _ textFiles_view textFiles_text).2.2.1 1 [0, 0, 0]).2
    (by decide)

/-- At the largest offset there is no text, but the end of the window can't be told. -/
theorem readText_overflow :
    textFiles.textView sampleFid = .ok ⟨6, [(0, 0)]⟩ ∧
    textFiles.copyOutLines sampleFid = .ok [104, 105, 10, 10, 120, 10] ∧
    window [104, 105, 10, 10, 120, 10] (2 ^ 64 - 1) 1 = ([] : List UInt8) ∧
    textFiles.readText sampleFid ⟨6, [(0, 0)]⟩ (2 ^ 64 - 1) [0] = .error (.ods .panic) := by
  refine ⟨textFiles_view, textFiles_text, by decide +kernel, by decide +kernel⟩

end Volume

end Ods
