/-
  Records read and lines written.

  * `agrees_next`, `agrees_collect`: what is read does not depend on the pieces the
    reader gives, so that a reader can be taken to be a tape.
  * `collect_encode`: records laid out one after another are read back.
  * `records_of_lines`: what `VarWriter` writes, however it is given a text and however
    it is read back, is the lines of the text.
-/
import Vaxpunk.Lib.Exec
import Vaxpunk.Ods.Records

namespace Ods

open Stream (Agrees Same Lawful tape)
open Exec (bind_eq_ok)
open List Stream

variable {n : ℕ} {rest s : List UInt8} {w : VarWriter} {state : List (List UInt8) × List UInt8}
    {bufs : List (List UInt8)}

namespace Records

variable {σ ε : Type} {read : Stream.Reader ε σ UInt8} {holds : σ → List UInt8 → Prop}

/-! ## Whatever the pieces -/

/-- A reader and a tape with the same bytes left, at the same position. -/
def At (holds : σ → List UInt8 → Prop) (s : σ × ℕ) (t : List UInt8 × ℕ) : Prop :=
  holds s.1 t.1 ∧ s.2 = t.2

theorem lawful_tape : Lawful (tape : Stream.Reader ε (List UInt8) UInt8) Eq := by
  rintro n s d rfl
  refine ⟨n, s.drop n, rfl, rfl, le_rfl, fun h _ => h⟩

theorem agrees_position : Agrees (At holds) (position : Reading σ ε ℕ) position := by
  rintro ⟨r, pos⟩ ⟨d, _⟩ ⟨hr, rfl⟩
  exact .ok ⟨hr, rfl⟩

section agrees
variable (hread : Lawful read holds)
include hread

theorem agrees_byte :
    Agrees (At holds) (byte read) (byte (tape : Stream.Reader ε _ _)) := by
  rintro ⟨r, pos⟩ ⟨d, _⟩ ⟨hr, rfl⟩
  obtain ⟨k, r', hok, hr', hk, hpos⟩ := hread 1 r d hr
  cases d with
  | nil =>
    rw [take_nil] at hok
    rw [drop_nil] at hr'
    have hbyte : byte read (r, pos) = .ok (none, r', pos) := by
      simp only [byte, hok]
    rw [hbyte]
    exact .ok ⟨hr', rfl⟩
  | cons b d =>
    obtain rfl : k = 1 := by
      have := hpos Nat.one_pos (by simp)
      omega
    have hbyte : byte read (r, pos) = .ok (some b, r', pos + 1) := by
      simp only [byte, hok, take_succ_cons, take_zero]
    rw [hbyte]
    exact .ok ⟨hr', rfl⟩

theorem agrees_exact (n : ℕ) :
    Agrees (At holds) (exact read n) (exact (tape : Stream.Reader ε _ _) n) := by
  rintro ⟨r, pos⟩ ⟨d, _⟩ ⟨hr, rfl⟩
  unfold exact
  by_cases hn : n ≤ d.length
  · obtain ⟨r', hok, hr'⟩ := readExact_ok hread hr le_rfl hn
    obtain ⟨_, hok', rfl⟩ := readExact_ok (lawful_tape (ε := ε)) (rfl : d = d) le_rfl hn
    simp only [hok, hok']
    exact .ok ⟨hr', rfl⟩
  · have hlt : d.length < n := by omega
    simp only [readExact_none hread hr hlt,
      readExact_none (lawful_tape (ε := ε)) (rfl : d = d) hlt]
    exact .error _

theorem agrees_skip (n : ℕ) :
    Agrees (At holds) (skip read n) (skip (tape : Stream.Reader ε _ _) n) := by
  induction n with
  | zero => exact .pure ()
  | succ n ih =>
    refine (agrees_byte hread).bind fun b => ?_
    cases b with
    | none => exact .pure ()
    | some b => exact ih

theorem agrees_skipPad (n : ℕ) :
    Agrees (At holds) (skipPad read n) (skipPad (tape : Stream.Reader ε _ _) n) := by
  unfold skipPad
  split_ifs
  exacts [agrees_skip hread 1, .pure ()]

theorem agrees_nextVar (msb : Bool) (fuel : ℕ) :
    Agrees (At holds) (nextVar read msb fuel) (nextVar (tape : Stream.Reader ε _ _) msb fuel) := by
  induction fuel with
  | zero => exact .throw _
  | succ fuel ih =>
    refine (agrees_byte hread).bind fun first => ?_
    cases first with
    | none => exact .pure none
    | some first =>
      refine (agrees_byte hread).bind fun second => ?_
      cases second with
      | none => exact .throw _
      | some second =>
        simp only
        split_ifs
        · exact agrees_position.bind fun pos => (agrees_skip hread _).bind fun _ => ih
        · exact (agrees_exact hread _).bind fun data =>
            (agrees_skipPad hread _).bind fun _ => .pure (some data)

theorem agrees_nextFix (n : ℕ) :
    Agrees (At holds) (nextFix read n) (nextFix (tape : Stream.Reader ε _ _) n) := by
  refine (agrees_byte hread).bind fun first => ?_
  cases first with
  | none => exact .pure none
  | some first =>
    exact (agrees_exact hread _).bind fun data =>
      (agrees_skipPad hread _).bind fun _ => .pure (some (first :: data))

theorem agrees_nextStream (stop : List UInt8) (fuel : ℕ) (data : List UInt8) :
    Agrees (At holds) (nextStream read stop fuel data)
      (nextStream (tape : Stream.Reader ε _ _) stop fuel data) := by
  induction fuel generalizing data with
  | zero => exact .throw _
  | succ fuel ih =>
    refine (agrees_byte hread).bind fun b => ?_
    cases b with
    | none =>
      simp only
      split_ifs
      exacts [.pure none, .pure (some data)]
    | some b =>
      simp only
      cases cutSize stop (data ++ [b]) with
      | some cut => exact .pure _
      | none => exact ih _

theorem agrees_next (fuel : ℕ) (format : Format) :
    Agrees (At holds) (next read fuel format) (next (tape : Stream.Reader ε _ _) fuel format) := by
  cases format with
  | var vfc msb => exact agrees_nextVar hread msb fuel
  | fix n => exact agrees_nextFix hread n
  | stream stop => exact agrees_nextStream hread stop fuel []

theorem agrees_collect (fuel : ℕ) (format : Format) (n : ℕ) :
    Agrees (At holds) (collect read fuel format n)
      (collect (tape : Stream.Reader ε _ _) fuel format n) := by
  induction n with
  | zero => exact .throw _
  | succ n ih =>
    refine (agrees_next hread fuel format).bind fun r => ?_
    cases r with
    | none => exact .pure []
    | some r => exact ih.bind fun rs => .pure (r :: rs)

end agrees

/-! ## Records one after another -/

/-- A record as VAR files have it. -/
def encode (r : List UInt8) : List UInt8 :=
  [UInt8.ofNat (r.length % 256), UInt8.ofNat (r.length / 256)] ++ r ++
    (if r.length % 2 = 1 then [0] else [])

theorem byte_tape (b : UInt8) (d : List UInt8) (pos : ℕ) :
    byte (tape : Stream.Reader ε _ _) (b :: d, pos) = .ok (some b, d, pos + 1) := rfl

theorem exact_tape {d : List UInt8} (h : n ≤ d.length) (pos : ℕ) :
    exact (tape : Stream.Reader ε _ _) n (d, pos) = .ok (d.take n, d.drop n, pos + n) := by
  obtain ⟨_, hok, rfl⟩ := readExact_ok (lawful_tape (ε := ε)) (rfl : d = d) le_rfl h
  simp only [exact, hok]

theorem lengthWord_ofNat (h : n < 0x8000) :
    lengthWord false (UInt8.ofNat (n % 256)) (UInt8.ofNat (n / 256)) = n := by
  simp only [lengthWord, Bool.false_eq_true, if_false, UInt8.toNat_ofNat']
  omega

theorem nextVar_encode {r : List UInt8} (h : r.length < 0x8000) (fuel pos : ℕ) :
    nextVar (tape : Stream.Reader ε _ _) false (fuel + 1) (encode r ++ rest, pos) =
      .ok (some r, rest, pos + (encode r).length) := by
  have hlen : lengthWord false (UInt8.ofNat (r.length % 256)) (UInt8.ofNat (r.length / 256)) =
      r.length := lengthWord_ofNat h
  have hexact : exact (tape : Stream.Reader ε _ _) r.length
      (r ++ ((if r.length % 2 = 1 then [0] else []) ++ rest), pos + 1 + 1) =
      .ok (r, (if r.length % 2 = 1 then [0] else []) ++ rest, pos + 1 + 1 + r.length) := by
    rw [exact_tape (by simp), take_left', drop_left']
    all_goals rfl
  have hpad : skipPad (tape : Stream.Reader ε _ _) r.length
      ((if r.length % 2 = 1 then [0] else []) ++ rest, pos + 1 + 1 + r.length) =
      .ok ((), rest, pos + (encode r).length) := by
    unfold skipPad encode
    split_ifs
    · change Except.ok ((), rest, _) = _
      congr 3
      simp
      omega
    · change Except.ok ((), [] ++ rest, _) = _
      congr 3
      simp
      omega
  have hassoc : encode r ++ rest = UInt8.ofNat (r.length % 256) :: UInt8.ofNat (r.length / 256) ::
      (r ++ ((if r.length % 2 = 1 then [0] else []) ++ rest)) := by
    simp [encode]
  rw [hassoc, nextVar, run_bind (byte_tape _ _ _)]
  simp only
  rw [run_bind (byte_tape _ _ _)]
  simp only [hlen]
  rw [if_neg (by omega), run_bind hexact, run_bind hpad]
  rfl

theorem collect_encode {rs : List (List UInt8)} (h : ∀ r ∈ rs, r.length < 0x8000)
    (hn : rs.length < n) (fuel pos : ℕ) :
    collect (tape : Stream.Reader ε _ _) (fuel + 1) (.var 0 false) n (rs.flatMap encode, pos) =
      .ok (rs, [], pos + (rs.flatMap encode).length) := by
  induction rs generalizing n pos with
  | nil =>
    obtain ⟨n, rfl⟩ : ∃ k, n = k + 1 := ⟨n - 1, by simp only [length_nil] at hn; omega⟩
    rfl
  | cons r rs ih =>
    obtain ⟨n, rfl⟩ : ∃ k, n = k + 1 := ⟨n - 1, by omega⟩
    have hnext : next (tape : Stream.Reader ε _ _) (fuel + 1) (.var 0 false)
        (encode r ++ rs.flatMap encode, pos) =
        .ok (some r, rs.flatMap encode, pos + (encode r).length) :=
      nextVar_encode (h r mem_cons_self) fuel pos
    have hrest := ih (fun x hx => h x (mem_cons_of_mem _ hx)) (n := n)
      (by simp only [length_cons] at hn; omega) (pos + (encode r).length)
    rw [flatMap_cons, collect, run_bind hnext]
    simp only
    rw [run_bind hrest, length_append, Nat.add_assoc]
    rfl

end Records

/-! ## Lines -/

namespace VarWriter

open Records (encode)

/-- The lines that have ended, and the line begun. -/
def cut (state : List (List UInt8) × List UInt8) (b : UInt8) : List (List UInt8) × List UInt8 :=
  if b = 10 then (state.1 ++ [state.2], []) else (state.1, state.2 ++ [b])

/-- The lines of a text: up to each LF, without the CR before it, and what is left after
    the last LF if that is anything. -/
def lines (text : List UInt8) : List (List UInt8) :=
  let (ended, begun) := text.foldl cut ([], [])
  (if begun = [] then ended else ended ++ [begun]).map strip

theorem foldl_cut_of_not_mem (h : 10 ∉ s) (state : List (List UInt8) × List UInt8) :
    s.foldl cut state = (state.1, state.2 ++ s) := by
  induction s generalizing state with
  | nil => simp
  | cons b s ih =>
    rw [mem_cons, not_or] at h
    rw [foldl_cons, ih h.2, cut, if_neg (Ne.symm h.1), append_assoc]
    rfl

theorem foldl_cut_line (h : 10 ∉ s) (state : List (List UInt8) × List UInt8) :
    (s ++ 10 :: rest).foldl cut state = rest.foldl cut (state.1 ++ [state.2 ++ s], []) := by
  rw [foldl_append, foldl_cut_of_not_mem h, foldl_cons, cut, if_pos rfl]

/-- Lines that were written. -/
structure Wrote (w : VarWriter) (state : List (List UInt8) × List UInt8) : Prop where
  out : w.out = (state.1.map strip).flatMap encode
  begun : w.begun = state.2
  short : ∀ l ∈ state.1, (strip l).length < 0x8000

theorem record_ok {line : List UInt8} (h : (strip line).length < 0x8000) :
    ∃ w', w.record line = .ok w' ∧ w'.out = w.out ++ encode (strip line) ∧ w'.begun = w.begun := by
  refine ⟨_, if_pos h, ?_, rfl⟩
  simp [encode]

theorem record_error {line : List UInt8} (h : ¬ (strip line).length < 0x8000) :
    w.record line = .error "line longer than 32767 bytes, the largest record" := if_neg h

theorem mem_foldl_cut {l : List UInt8} (h : l ∈ state.1) (s : List UInt8) :
    l ∈ (s.foldl cut state).1 := by
  induction s generalizing state with
  | nil => exact h
  | cons b s ih =>
    refine ih ?_
    unfold cut
    split_ifs
    exacts [mem_append_left _ h, h]

theorem writeLines_line (h : 10 ∉ s) (fuel : ℕ) (w : VarWriter) (rest : List UInt8) :
    writeLines (fuel + 1) w (s ++ 10 :: rest) =
      record { w with begun := [] } (w.begun ++ s) >>= fun w => writeLines fuel w rest := by
  have hidx : (s ++ 10 :: rest).idxOf 10 = s.length := by
    rw [idxOf_append_of_notMem h, idxOf_cons_self, Nat.add_zero]
  have hdrop : (s ++ 10 :: rest).drop (s.length + 1) = rest := by simp
  rw [writeLines, if_pos (by simp)]
  simp only [hidx, take_left', hdrop]

theorem writeLines_spec {fuel : ℕ} (hw : Wrote w state) (hfuel : rest.length < fuel) :
    (∃ w', writeLines fuel w rest = .ok w' ∧ Wrote w' (rest.foldl cut state)) ∨
    ((∃ e, writeLines fuel w rest = .error e) ∧
      ∃ l ∈ (rest.foldl cut state).1, ¬ (strip l).length < 0x8000) := by
  induction fuel generalizing w state rest with
  | zero => omega
  | succ fuel ih =>
    by_cases hmem : 10 ∈ rest
    · obtain ⟨s, rest, rfl, hs⟩ := eq_append_cons_of_mem hmem
      have hlen : rest.length < fuel := by
        rw [length_append, length_cons] at hfuel
        omega
      rw [writeLines_line hs, foldl_cut_line hs, hw.begun]
      by_cases hshort : (strip (state.2 ++ s)).length < 0x8000
      · obtain ⟨w', hok, hout, hbegun⟩ := record_ok (w := { w with begun := [] }) hshort
        have hw' : Wrote w' (state.1 ++ [state.2 ++ s], []) := by
          refine ⟨?_, hbegun, ?_⟩
          · rw [hout]
            simp [hw.out]
          · intro l hl
            rcases mem_append.mp hl with hl | hl
            · exact hw.short l hl
            · rw [mem_singleton.mp hl]
              exact hshort
        rw [hok]
        exact ih hw' hlen
      · rw [record_error hshort]
        exact .inr ⟨⟨_, rfl⟩, state.2 ++ s, mem_foldl_cut (by simp) _, hshort⟩
    · rw [writeLines, if_neg hmem, foldl_cut_of_not_mem hmem]
      exact .inl ⟨_, rfl, ⟨hw.out, by rw [← hw.begun], hw.short⟩⟩

theorem foldlM_write (hw : Wrote w state) :
    (∃ w', bufs.foldlM write w = .ok w' ∧ Wrote w' (bufs.flatten.foldl cut state)) ∨
    ((∃ e, bufs.foldlM write w = .error e) ∧
      ∃ l ∈ (bufs.flatten.foldl cut state).1, ¬ (strip l).length < 0x8000) := by
  induction bufs generalizing w state with
  | nil => exact .inl ⟨w, rfl, hw⟩
  | cons buf bufs ih =>
    rw [flatten_cons, foldl_append, foldlM_cons]
    rcases writeLines_spec hw (Nat.lt_succ_self buf.length) with ⟨w', hok, hw'⟩ | ⟨⟨e, herr⟩, l, hl, hlong⟩
    · have hwrite : write w buf = .ok w' := hok
      rw [hwrite]
      exact ih hw'
    · have hwrite : write w buf = .error e := herr
      rw [hwrite]
      exact .inr ⟨⟨e, rfl⟩, l, mem_foldl_cut hl _, hlong⟩

theorem writeAll_ok (h : ∀ l ∈ lines bufs.flatten, l.length < 0x8000) :
    ∃ longest, writeAll bufs = .ok ((lines bufs.flatten).flatMap encode, longest) := by
  have hnew : Wrote new ([], []) := ⟨rfl, rfl, by simp⟩
  unfold lines at h ⊢
  simp only at h ⊢
  rcases foldlM_write hnew with ⟨w, hok, hw⟩ | ⟨-, l, hl, hlong⟩
  · rw [writeAll, hok]
    change ∃ longest, w.finish = _
    unfold finish
    rw [hw.begun]
    by_cases hbegun : (bufs.flatten.foldl cut ([], [])).2 = []
    · rw [if_neg (not_not.mpr hbegun), if_pos hbegun, hw.out]
      exact ⟨_, rfl⟩
    · rw [if_neg hbegun] at h
      rw [if_pos hbegun, if_neg hbegun]
      obtain ⟨w', hrec, hout, -⟩ := record_ok (w := { w with begun := [] })
        (h (strip (bufs.flatten.foldl cut ([], [])).2) (by simp))
      rw [hrec]
      refine ⟨w'.longest, congrArg Except.ok (Prod.ext ?_ rfl)⟩
      rw [hout, hw.out]
      simp
  · refine absurd (h (strip l) (mem_map_of_mem ?_)) hlong
    split_ifs
    exacts [hl, mem_append_left _ hl]

theorem writeAll_error (h : ¬ ∀ l ∈ lines bufs.flatten, l.length < 0x8000) :
    ∃ e, writeAll bufs = .error e := by
  have hnew : Wrote new ([], []) := ⟨rfl, rfl, by simp⟩
  rcases (foldlM_write hnew : (∃ w', bufs.foldlM write new = .ok w' ∧ _) ∨ _) with
    ⟨w, hok, hw⟩ | ⟨⟨e, herr⟩, -⟩
  · rw [writeAll, hok]
    change ∃ e, w.finish = _
    unfold finish
    rw [hw.begun]
    by_cases hbegun : (bufs.flatten.foldl cut ([], [])).2 = []
    · refine absurd (fun l hl => ?_) h
      simp only [lines, if_pos hbegun] at hl
      obtain ⟨k, hk, rfl⟩ := mem_map.mp hl
      exact hw.short k hk
    · rw [if_pos hbegun]
      by_cases hshort : (strip (bufs.flatten.foldl cut ([], [])).2).length < 0x8000
      · refine absurd (fun l hl => ?_) h
        simp only [lines, if_neg hbegun] at hl
        obtain ⟨k, hk, rfl⟩ := mem_map.mp hl
        rcases mem_append.mp hk with hk | hk
        · exact hw.short k hk
        · rw [mem_singleton.mp hk]
          exact hshort
      · rw [record_error hshort]
        exact ⟨_, rfl⟩
  · rw [writeAll, herr]
    exact ⟨e, rfl⟩

theorem lines_of_records {rs : List (List UInt8)} (h : ∀ r ∈ rs, 10 ∉ r ∧ r.getLast? ≠ some 13) :
    lines (rs.flatMap (· ++ [10])) = rs := by
  have hfold : ∀ ended : List (List UInt8),
      (rs.flatMap (· ++ [10])).foldl cut (ended, []) = (ended ++ rs, []) := by
    induction rs with
    | nil => simp
    | cons r rs ih =>
      intro ended
      rw [flatMap_cons, append_assoc, singleton_append,
        foldl_cut_line (h r mem_cons_self).1, ih fun x hx => h x (mem_cons_of_mem _ hx)]
      simp
  have hstrip : rs.map strip = rs := by
    conv_rhs => rw [← map_id rs]
    refine map_congr_left fun r hr => if_neg (h r hr).2
  unfold lines
  rw [hfold]
  simpa using hstrip

/-- **What `VarWriter` writes is read back.**  A text is written in any pieces.  If each of
    its lines is at most 32767 bytes long, what is written is read back as its lines, in
    chunks of any size; else it is refused.  So records come back as they are if none
    has an LF in it or a CR at its end. -/
theorem records_of_lines (ε : Type) (bufs : List (List UInt8)) :
    ((∀ l ∈ lines bufs.flatten, l.length < 0x8000) →
      ∃ out longest, writeAll bufs = .ok (out, longest) ∧
        ∀ cs, Stream.InChunks cs out → ∀ fuel n, (lines bufs.flatten).length < n →
          (Records.collect (chunks : Stream.Reader ε _ _) (fuel + 1) (.var 0 false) n
            (cs, 0)).map Prod.fst = .ok (lines bufs.flatten)) ∧
    ((¬ ∀ l ∈ lines bufs.flatten, l.length < 0x8000) → ∃ e, writeAll bufs = .error e) ∧
    ∀ rs : List (List UInt8), bufs.flatten = rs.flatMap (· ++ [10]) →
      (∀ r ∈ rs, 10 ∉ r ∧ r.getLast? ≠ some 13) → lines bufs.flatten = rs := by
  refine ⟨fun h => ?_, writeAll_error, fun rs hbufs hrs => ?_⟩
  · obtain ⟨longest, hok⟩ := writeAll_ok h
    refine ⟨_, longest, hok, fun cs hcs fuel n hn => ?_⟩
    have hagree := Records.agrees_collect (lawful_chunks (ε := ε)) (fuel + 1) (.var 0 false) n
      (cs, 0) ((lines bufs.flatten).flatMap encode, 0) ⟨hcs, rfl⟩
    rw [hagree.map_fst, Records.collect_encode h hn]
    rfl
  · rw [hbufs]
    exact lines_of_records hrs

/-- "hi", an empty line and "x", written in two pieces. -/
theorem records_of_lines_small :
    ∃ out longest, writeAll [[104, 105, 10, 10], [120]] = .ok (out, longest) ∧
      ∀ cs, Stream.InChunks cs out → ∀ fuel n, 3 < n →
        (Records.collect (chunks : Stream.Reader Empty _ _) (fuel + 1) (.var 0 false) n
          (cs, 0)).map Prod.fst = .ok [[104, 105], [], [120]] :=
  (records_of_lines Empty [[104, 105, 10, 10], [120]]).1 (by decide)

/-- The CR at the end of a record is taken for a part of the line's end, and the LF in
    a record for the end. -/
theorem records_not_read_back :
    (writeAll [[97, 13, 10]] = .ok ([1, 0, 97, 0], 1) ∧
      (Records.collect (chunks : Stream.Reader Empty _ _) 1 (.var 0 false) 2
        ([[1, 0, 97, 0]], 0)).map Prod.fst = .ok [[97]]) ∧
    writeAll [[97, 10, 98, 10]] = .ok ([1, 0, 97, 0, 1, 0, 98, 0], 1) ∧
      (Records.collect (chunks : Stream.Reader Empty _ _) 1 (.var 0 false) 3
        ([[1, 0, 97, 0, 1, 0, 98, 0]], 0)).map Prod.fst = .ok [[97], [98]] := by
  decide +kernel

end VarWriter

end Ods
