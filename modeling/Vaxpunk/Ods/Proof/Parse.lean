/-
  What `parse` makes of a text that `display` or `to_vms` wrote.

  * `yields_displayChar`, `yields_escapeChar`: a character written with its escape is
    read back as a literal, whatever follows it.
  * `parseFile_body`: tokens with one dot at most are a name, with the version after
    the semicolon.
  * `parse_display`: a name that may be created is parsed back from what is printed.
-/
import Vaxpunk.Lib.Exec
import Vaxpunk.Ods.Spec

namespace Ods

open List UInt8

variable {n : ℕ} {s : List Char} {c : UInt8} {t : Tok} {toks rest : List Tok} {name : List UInt8}
    {α : Type}

namespace Name

open Scan (Yields)
open Exec (bind_eq_ok)

/-! ## Tokens -/

variable {s' : List Char}

theorem ucs2Escape_shrinks {v v' : ℕ} (h : ucs2Escape n v s = .ok (v', s')) : s'.length ≤ s.length := by
  induction n generalizing v s with
  | zero =>
    cases h
    exact le_rfl
  | succ n ih =>
    cases s with
    | nil => cases h
    | cons c s =>
      rw [ucs2Escape] at h
      split at h
      · cases h
      · exact (ih h).trans (Nat.le_succ _)

theorem unescape_shrinks {b : UInt8} (h : unescape s = .ok (b, s')) : s'.length ≤ s.length := by
  cases s with
  | nil => cases h
  | cons c s =>
    rw [unescape] at h
    rw [length_cons]
    split_ifs at h with hspace hu
    · cases h
      exact Nat.le_succ _
    · obtain ⟨⟨v, rest⟩, hv, h⟩ := bind_eq_ok.mp h
      simp only at h
      split_ifs at h
      cases h
      exact (ucs2Escape_shrinks hv).trans (Nat.le_succ _)
    · split at h
      · split at h
        · cases h
          rw [length_tail]
          omega
        · cases h
      · obtain ⟨b, -, h⟩ := bind_eq_ok.mp h
        cases h
        exact Nat.le_succ _

theorem token_shrinks (level : Level) : Scan.Shrinks (token level) := by
  intro c s t s' h
  unfold token at h
  split at h
  · obtain ⟨⟨b, rest⟩, hb, h⟩ := bind_eq_ok.mp h
    cases h
    exact unescape_shrinks hb
  · split at h
    · cases h
      exact le_rfl
    · obtain ⟨b, -, h⟩ := bind_eq_ok.mp h
      cases h
      exact le_rfl

variable {level : Level}

theorem yields_sep {c : Char} (hc : c ∈ delimiters) :
    Yields (token level) [c] (.ok [.sep (ofNat c.toNat)]) := by
  refine .tok (token_shrinks level) fun s => ?_
  have hcaret : c ≠ '^' := by
    rintro rfl
    exact absurd hc (by decide)
  rw [token, if_neg (fun h => hcaret h.1), if_pos hc]
  rfl

theorem yields_dot : Yields (token level) ['.'] (.ok [.dot]) := yields_sep (c := '.') (by decide)

theorem yields_plain {c : Char} {r : Except String UInt8} (hcaret : c ≠ '^' ∨ level = .ods2)
    (hdelim : c ∉ delimiters) (hr : latin1 (if level = .ods2 then c.toUpper else c) = r) :
    Yields (token level) [c] (r.map fun b => [.lit b]) := by
  have hstep : ∀ s, token level c ([] ++ s) = r.map fun b => (.lit b, s) := by
    intro s
    have hno : ¬ (c = '^' ∧ level = .ods5) := by
      rintro ⟨rfl, rfl⟩
      rcases hcaret with h | h
      exacts [h rfl, absurd h (by decide)]
    rw [token, if_neg hno, if_neg hdelim, hr]
    cases r <;> rfl
  cases r with
  | error e => exact .fail (token_shrinks level) hstep
  | ok b => exact .tok (token_shrinks level) hstep

theorem yields_escape {w : List Char} {b : UInt8} (h : ∀ s, unescape (w ++ s) = .ok (b, s)) :
    Yields (token .ods5) ('^' :: w) (.ok [.lit b]) := by
  refine .tok (token_shrinks .ods5) fun s => ?_
  rw [token, if_pos ⟨rfl, rfl⟩, h]
  rfl

theorem yields_space : Yields (token .ods5) ['^', '_'] (.ok [.lit 32]) :=
  yields_escape fun _ => rfl

theorem yields_caret {c : Char} (hc : c ∈ ['.', ',', ';', '[', ']', '%', '<', '>', ':', '^', '&']) :
    Yields (token .ods5) ['^', c] (.ok [.lit (ofNat c.toNat)]) := by
  refine yields_escape fun s => ?_
  simp only [mem_cons, not_mem_nil, or_false] at hc
  rcases hc with rfl | rfl | rfl | rfl | rfl | rfl | rfl | rfl | rfl | rfl | rfl <;> rfl

theorem hex_hexDigit : ∀ n < 16, hex (hexDigit n) = some n ∧ hexDigit n ≠ '_' ∧
    hexDigit n ≠ ' ' ∧ hexDigit n ≠ 'U' ∧ hexDigit n ≠ 'u' := by
  decide

theorem unescape_hex {a b : Char} {hi lo : ℕ} (ha : hex a = some hi) (hb : hex b = some lo)
    (hspace : ¬ (a = '_' ∨ a = ' ')) (hu : ¬ (a = 'U' ∨ a = 'u')) (s : List Char) :
    unescape (a :: b :: s) = .ok (ofNat (hi <<< 4 ||| lo), s) := by
  rw [unescape, if_neg hspace, if_neg hu, ha]
  simp only [List.head?_cons, Option.bind_some, hb, tail_cons]

theorem yields_hex :
    Yields (token .ods5) ['^', hexDigit (c.toNat / 16), hexDigit (c.toNat % 16)] (.ok [.lit c]) := by
  have hc := c.toNat_lt
  obtain ⟨hhi, h1, h2, h3, h4⟩ := hex_hexDigit (c.toNat / 16) (by omega)
  obtain ⟨hlo, -⟩ := hex_hexDigit (c.toNat % 16) (by omega)
  have hbyte : (c.toNat / 16) <<< 4 ||| c.toNat % 16 = c.toNat := by
    rw [← Nat.shiftLeft_add_eq_or_of_lt (by omega), Nat.shiftLeft_eq]
    omega
  refine yields_escape fun s => (unescape_hex hhi hlo (by simp [h1, h2]) (by simp [h3, h4]) s).trans ?_
  rw [hbyte, UInt8.ofNat_toNat]

/-! ## A stored name printed -/

def byteChar (c : UInt8) : Char := Char.ofNat c.toNat

theorem toNat_byteChar (c : UInt8) : (byteChar c).toNat = c.toNat := by
  have hc := c.toNat_lt
  have hvalid : c.toNat.isValidChar := Or.inl (by omega)
  rw [byteChar, Char.ofNat, dif_pos hvalid]
  rfl

theorem latin1_byteChar (c : UInt8) : latin1 (byteChar c) = .ok c := by
  have hc := c.toNat_lt
  rw [latin1, toNat_byteChar, if_pos (by omega), UInt8.ofNat_toNat]

theorem byteChar_eq_iff {d : Char} : byteChar c = d ↔ c.toNat = d.toNat := by
  rw [← Char.toNat_inj, toNat_byteChar]

variable {d : UInt8}

theorem eq_of_byteChar (h : byteChar c = byteChar d) : c = d := by
  rw [byteChar_eq_iff, toNat_byteChar] at h
  exact UInt8.toNat_inj.mp h

theorem displayChar_ods5 (hdot : c ≠ dot) (td : Bool) :
    displayChar .ods5 td c.toNat =
      if byteChar c = ' ' then ['^', '_'] else if byteChar c ∈ escaped then ['^', byteChar c]
      else if c.toNat < 0x20 ∨ 0x7f ≤ c.toNat ∧ c.toNat < 0xa0 then
        ['^', hexDigit (c.toNat / 16), hexDigit (c.toNat % 16)]
      else [byteChar c] := by
  have hc := c.toNat_lt
  have hno : ¬ (Char.ofNat c.toNat = '.' ∧ ¬ td) := fun h =>
    hdot (eq_of_byteChar h.1)
  simp only [displayChar, if_neg (by omega : ¬ (0xd800 ≤ c.toNat ∧ c.toNat < 0xe000)), if_neg hno,
    if_neg (by omega : ¬ 0xff < c.toNat), reduceCtorEq, if_false]
  rfl

theorem yields_displayChar_ods5 (hbad : ods5Bad c = false) (hdot : c ≠ dot) (td : Bool) :
    Yields (token .ods5) (displayChar .ods5 td c.toNat) (.ok [.lit c]) := by
  rw [displayChar_ods5 hdot]
  split_ifs with hspace hesc hctrl
  · rw [eq_of_byteChar (d := 32) hspace]
    exact yields_space
  · have h := yields_caret (c := byteChar c) (mem_cons_of_mem _ ?_)
    · rwa [toNat_byteChar, UInt8.ofNat_toNat] at h
    · revert hesc
      simp only [escaped, mem_cons]
      tauto
  · exact yields_hex
  · have hcaret : byteChar c ≠ '^' := by
      intro h
      rw [h] at hesc
      exact hesc (by decide)
    have hlatin : latin1 (if Level.ods5 = .ods2 then (byteChar c).toUpper else byteChar c) = .ok c :=
      latin1_byteChar c
    refine yields_plain (.inl hcaret) ?_ hlatin
    -- the delimiters are the dot, characters that are escaped, and some no name has
    intro hdelim
    have hcases : byteChar c = '.' ∨ byteChar c = '*' ∨ byteChar c = '?' := by
      revert hesc hdelim
      simp only [escaped, delimiters, mem_cons, not_mem_nil]
      tauto
    rcases hcases with h | h | h
    · exact hdot (eq_of_byteChar h)
    · rw [eq_of_byteChar (d := 42) h] at hbad
      exact absurd hbad (by decide)
    · rw [eq_of_byteChar (d := 63) h] at hbad
      exact absurd hbad (by decide)

theorem ods2Char_plain : ∀ n < 256, ods2Char (ofNat n) = true →
    (byteChar (ofNat n)).toUpper = byteChar (ofNat n) ∧
      byteChar (ofNat n) ∉ delimiters := by
  decide +kernel

theorem yields_displayChar_ods2 (hok : ods2Char c = true) (td : Bool) :
    Yields (token .ods2) (displayChar .ods2 td c.toNat) (.ok [.lit c]) := by
  have hc := c.toNat_lt
  have hchar : displayChar .ods2 td c.toNat = [byteChar c] := by
    rw [displayChar, if_pos rfl, Nat.mod_eq_of_lt hc, byteChar]
  have hupper := ods2Char_plain c.toNat hc
  rw [UInt8.ofNat_toNat] at hupper
  obtain ⟨hupper, hdelim⟩ := hupper hok
  rw [hchar]
  exact yields_plain (.inr rfl) hdelim (by rw [if_pos rfl, hupper, latin1_byteChar])

theorem yields_displayChar_dot : Yields (token level) (displayChar level true 46) (.ok [.dot]) := by
  cases level <;> exact yields_dot

theorem displayChars_split {a b : List ℕ} (hb : 46 ∉ b) :
    displayChars level (a ++ 46 :: b) =
      a.flatMap (displayChar level false) ++ displayChar level true 46 ++
        b.flatMap (displayChar level false) := by
  induction a with
  | nil =>
    have htype : ∀ cs : List ℕ, 46 ∉ cs →
        displayChars level cs = cs.flatMap (displayChar level false) := by
      intro cs hcs
      induction cs with
      | nil => rfl
      | cons c cs ih =>
        rw [mem_cons, not_or] at hcs
        have hc : decide (c = 46 ∧ 46 ∉ cs) = false := decide_eq_false fun h => hcs.1 h.1.symm
        rw [displayChars, hc, ih hcs.2, flatMap_cons]
    have hdot : decide (46 = 46 ∧ 46 ∉ b) = true := decide_eq_true ⟨rfl, hb⟩
    rw [nil_append, displayChars, hdot, htype b hb, flatMap_nil, nil_append]
  | cons c a ih =>
    have hc : decide (c = 46 ∧ 46 ∉ a ++ 46 :: b) = false := decide_eq_false fun h => h.2 (by simp)
    rw [cons_append, displayChars, hc, ih, flatMap_cons]
    simp only [append_assoc]

/-! ## The tokens of a name -/

/-- The tokens of a name, with a dot and the type after it or without. -/
def bodyToks (a : List UInt8) (b : Option (List UInt8)) : List Tok :=
  a.map .lit ++ b.elim [] fun b => .dot :: b.map .lit

def bodyName (a : List UInt8) (b : Option (List UInt8)) : List UInt8 := a ++ dot :: b.getD []

variable {a : List UInt8} {b : Option (List UInt8)}

theorem mem_bodyToks (h : t ∈ bodyToks a b) : t = .dot ∨ ∃ c, t = .lit c := by
  rw [bodyToks, mem_append] at h
  rcases h with h | h
  · obtain ⟨c, -, rfl⟩ := mem_map.mp h
    exact .inr ⟨c, rfl⟩
  · cases b with
    | none => cases h
    | some b =>
      rcases mem_cons.mp h with rfl | h
      · exact .inl rfl
      · obtain ⟨c, -, rfl⟩ := mem_map.mp h
        exact .inr ⟨c, rfl⟩

theorem not_mem_bodyToks (hc : c ≠ dot) : Tok.sep c ∉ bodyToks a b := by
  intro h
  rcases mem_bodyToks h with h | ⟨d, h⟩
  · exact hc (Tok.sep.inj h)
  · cases h

theorem dot_not_mem_lits (a : List UInt8) : Tok.dot ∉ a.map Tok.lit := by
  intro h
  obtain ⟨c, -, h⟩ := mem_map.mp h
  cases h

theorem dot_mem_bodyToks : Tok.dot ∈ bodyToks a b ↔ b.isSome = true := by
  rw [bodyToks, mem_append, or_iff_right (dot_not_mem_lits a)]
  cases b <;> simp

theorem nameBytes_lits (a : List UInt8) : nameBytes level (a.map .lit) = .ok a := by
  induction a with
  | nil => rfl
  | cons c a ih =>
    rw [map_cons, nameBytes, if_neg (fun h => Tok.noConfusion h.1), if_neg Tok.noConfusion, ih]
    rfl

theorem nameBytes_append {toks' : List Tok} {name' : List UInt8}
    (h : nameBytes level toks = .ok name) (h' : nameBytes level toks' = .ok name')
    (hdot : .dot ∉ toks) : nameBytes level (toks ++ toks') = .ok (name ++ name') := by
  induction toks generalizing name with
  | nil =>
    cases h
    exact h'
  | cons t toks ih =>
    rw [mem_cons, not_or] at hdot
    rw [nameBytes, if_neg (fun h => hdot.1 h.1.symm)] at h
    rw [cons_append, nameBytes, if_neg (fun h => hdot.1 h.1.symm)]
    split_ifs at h ⊢ with hsemi
    obtain ⟨rest, hrest, h⟩ := bind_eq_ok.mp h
    cases h
    rw [ih hrest hdot.2]
    rfl

theorem nameBytes_body : nameBytes level (bodyToks a b) = .ok (a ++ b.elim [] (dot :: ·)) := by
  refine nameBytes_append (nameBytes_lits a) ?_ (dot_not_mem_lits a)
  cases b with
  | none => rfl
  | some b =>
    change nameBytes level (.dot :: b.map .lit) = _
    rw [nameBytes, if_neg (fun h => dot_not_mem_lits b h.2.1), if_neg (by decide), nameBytes_lits]
    rfl

/-! ## The version after a name -/

variable {p : α → Bool}

theorem cutLast_none {l : List α} (h : ∀ x ∈ l, p x = false) : cutLast p l = none := by
  induction l with
  | nil => rfl
  | cons x l ih =>
    rw [cutLast, ih fun y hy => h y (mem_cons_of_mem _ hy), h x mem_cons_self]
    rfl

theorem cutLast_append {l l' : List α} {x : α} (hx : p x = true)
    (h : ∀ y ∈ l', p y = false) : cutLast p (l ++ x :: l') = some (l, l') := by
  induction l with
  | nil => rw [nil_append, cutLast, cutLast_none h, hx]; rfl
  | cons y l ih => rw [cons_append, cutLast, ih]

theorem eq_of_cutLast {l before after : List α}
    (h : cutLast p l = some (before, after)) : ∃ x, l = before ++ x :: after ∧ p x = true := by
  induction l generalizing before with
  | nil => cases h
  | cons y l ih =>
    rw [cutLast] at h
    split at h
    · next hcut =>
      cases h
      obtain ⟨x, rfl, hx⟩ := ih hcut
      exact ⟨x, rfl, hx⟩
    · split_ifs at h with hy
      cases h
      exact ⟨y, rfl, hy⟩

theorem bodyVersion_semi {body v : List Tok} (hv : .semi ∉ v) :
    bodyVersion (body ++ .semi :: v) = (body, some v) := by
  have hcut : cutLast (· = Tok.semi) (body ++ .semi :: v) = some (body, v) :=
    cutLast_append (decide_eq_true rfl) fun t ht => decide_eq_false fun h => hv (h ▸ ht)
  rw [bodyVersion, hcut]

theorem count_dots : ((bodyToks a b).filter (· = .dot)).length ≤ 1 := by
  have hlits : ∀ l : List UInt8, (l.map Tok.lit).filter (· = .dot) = [] := fun l =>
    filter_eq_nil_iff.mpr fun t ht h => dot_not_mem_lits l (of_decide_eq_true h ▸ ht)
  rw [bodyToks, filter_append, hlits]
  cases b with
  | none => simp
  | some b =>
    change ((Tok.dot :: b.map Tok.lit).filter (· = .dot)).length ≤ 1
    rw [filter_cons, hlits]
    simp

theorem bodyVersion_none : bodyVersion (bodyToks a b) = (bodyToks a b, none) := by
  have hcut : cutLast (· = Tok.semi) (bodyToks a b) = none :=
    cutLast_none fun t ht => decide_eq_false fun h =>
      not_mem_bodyToks (by decide : (59 : UInt8) ≠ dot) (h ▸ ht)
  rw [bodyVersion, hcut]
  simp only
  rw [if_neg (by have := @count_dots a b; omega)]

theorem fileName_body (version : Version) :
    (do
      let name ← nameBytes level (bodyToks a b)
      Except.ok ⟨if .dot ∈ bodyToks a b then name else name ++ [dot], version⟩ : Except String FileName) =
      .ok ⟨bodyName a b, version⟩ := by
  rw [nameBytes_body]
  cases b with
  | none =>
    have hno : Tok.dot ∉ bodyToks a none := fun h => absurd (dot_mem_bodyToks.mp h) (by simp)
    change Except.ok _ = _
    rw [if_neg hno]
    simp [bodyName]
  | some b =>
    have hyes : Tok.dot ∈ bodyToks a (some b) := dot_mem_bodyToks.mpr rfl
    change Except.ok _ = _
    rw [if_pos hyes]
    rfl

theorem parseFile_semi {v : List Tok} (hv : .semi ∉ v) :
    parseFile level (bodyToks a b ++ .semi :: v) =
      (parseVersion v).map fun version => ⟨bodyName a b, version⟩ := by
  rw [parseFile, bodyVersion_semi hv]
  change (parseVersion v >>= _) = _
  cases parseVersion v with
  | error e => rfl
  | ok version => exact fileName_body version

theorem parseFile_none :
    parseFile level (bodyToks a b) = .ok ⟨bodyName a b, .highest⟩ := by
  rw [parseFile, bodyVersion_none]
  exact fileName_body .highest

/-! ## Versions -/

/-- The numbers a version can have. -/
def InRange : Version → Prop
  | .highest | .all => True
  | .exact n | .relative n => 1 ≤ n ∧ n ≤ MAX_VERSION

instance (v : Version) : Decidable (InRange v) := by
  cases v <;> (unfold InRange; infer_instance)

def digitBytes (n : ℕ) : List UInt8 := (Nat.toDigits 10 n).map fun c => ofNat c.toNat

def versionToks : Version → List Tok
  | .highest => []
  | .exact v => .semi :: (digitBytes v).map .lit
  | .relative n => .semi :: .lit 45 :: (digitBytes n).map .lit
  | .all => [.semi, .sep 42]

theorem digit_range {c : Char} (h : c.isDigit = true) : 48 ≤ c.toNat ∧ c.toNat ≤ 57 := by
  simp only [Char.isDigit, Bool.and_eq_true, decide_eq_true_eq] at h
  exact ⟨UInt32.le_iff_toNat_le.mp h.1, UInt32.le_iff_toNat_le.mp h.2⟩

theorem digit_plain : ∀ n < 58, 48 ≤ n → Char.ofNat n ≠ '^' ∧ Char.ofNat n ∉ delimiters ∧
    (Char.ofNat n).toUpper = Char.ofNat n ∧ latin1 (Char.ofNat n) = .ok (ofNat n) := by
  decide +kernel

theorem yields_digit {c : Char} (h : c.isDigit = true) :
    Yields (token level) [c] (.ok [.lit (ofNat c.toNat)]) := by
  obtain ⟨hlo, hhi⟩ := digit_range h
  obtain ⟨hcaret, hdelim, hupper, hlatin⟩ := digit_plain c.toNat (by omega) hlo
  rw [Char.ofNat_toNat] at hcaret hdelim hupper hlatin
  exact yields_plain (.inl hcaret) hdelim (by rw [hupper, ite_self, hlatin])

theorem yields_number (n : ℕ) :
    Yields (token level) (Nat.toDigits 10 n) (.ok ((digitBytes n).map .lit)) := by
  rw [digitBytes, map_map]
  exact .map fun c hc => yields_digit (Nat.isDigit_of_mem_toDigits (by omega) (by omega) hc)

theorem yields_version (v : Version) :
    Yields (token level) (versionText v) (.ok (versionToks v)) := by
  have hsemi : Yields (token level) [';'] (.ok [.semi]) := yields_sep (by decide)
  have hminus : Yields (token level) ['-'] (.ok [.lit 45]) := by
    cases level <;> exact yields_plain (r := .ok 45) (by decide) (by decide) rfl
  cases v with
  | highest => exact .nil
  | exact v => exact hsemi.append (yields_number v)
  | relative n => exact hsemi.append (hminus.append (yields_number n))
  | all => exact hsemi.append (yields_sep (by decide))

theorem toNat_digit {c : Char} (h : c.isDigit = true) : (ofNat c.toNat).toNat = c.toNat := by
  have hhi := (digit_range h).2
  rw [toNat_ofNat', Nat.mod_eq_of_lt (by omega)]

theorem foldl_digits {cs : List Char} (h : ∀ c ∈ cs, c.isDigit = true) (init : ℕ) :
    (cs.map fun c => ofNat c.toNat).foldl (fun n d => n * 10 + (d.toNat - 48)) init =
      Nat.ofDigitChars 10 cs init := by
  induction cs generalizing init with
  | nil => rfl
  | cons c cs ih =>
    rw [map_cons, foldl_cons, ih fun d hd => h d (mem_cons_of_mem _ hd),
      toNat_digit (h c mem_cons_self), mul_comm]
    rfl

theorem digitBytes_range (h : d ∈ digitBytes n) : 48 ≤ d ∧ d ≤ 57 := by
  obtain ⟨c, hc, rfl⟩ := mem_map.mp h
  have hdigit := Nat.isDigit_of_mem_toDigits (by omega) (by omega) hc
  rw [le_iff_toNat_le, le_iff_toNat_le, toNat_digit hdigit]
  exact digit_range hdigit

theorem map_literal_lits (l : List UInt8) : (l.map Tok.lit).map literal = l := by
  rw [map_map]
  exact map_id l

theorem digitBytes_version (h : n ≤ MAX_VERSION) :
    digitBytes n ≠ [] ∧ (digitBytes n).length ≤ 5 ∧
      ((digitBytes n).all fun d => 48 ≤ d && d ≤ 57) = true ∧
      (digitBytes n).foldl (fun n d => n * 10 + (d.toNat - 48)) 0 = n := by
  refine ⟨?_, ?_, ?_, ?_⟩
  · simp [digitBytes, Nat.toDigits_ne_nil]
  · rw [digitBytes, length_map, Nat.length_toDigits_le_iff (by omega) (by omega)]
    have : MAX_VERSION = 32767 := rfl
    omega
  · rw [all_eq_true]
    intro d hd
    simpa using digitBytes_range hd
  · rw [digitBytes, foldl_digits fun c hc => Nat.isDigit_of_mem_toDigits (by omega) (by omega) hc]
    exact Nat.ofDigitChars_ten_toDigits

theorem parseVersion_exact (h : InRange (.exact n)) :
    parseVersion ((digitBytes n).map .lit) = .ok (.exact n) := by
  obtain ⟨hne, hlen, hall, hfold⟩ := digitBytes_version h.2
  obtain ⟨d, ds, hds⟩ := exists_cons_of_ne_nil hne
  have hhead : (digitBytes n).head? ≠ some 45 := by
    intro hhead
    have hmem : (45 : UInt8) ∈ digitBytes n := mem_of_mem_head? hhead
    exact absurd (digitBytes_range hmem).1 (by decide)
  have hstar : (digitBytes n).map Tok.lit ≠ [.sep 42] := by
    rw [hds]
    intro h
    cases h
  rw [parseVersion, if_neg hstar]
  simp only [map_literal_lits, if_neg hhead, if_neg hne]
  rw [if_neg (by simp [hall]; omega), hfold, if_neg (by have := h.1; omega), if_neg (by have := h.2; omega)]
  rfl

theorem parseVersion_relative (h : InRange (.relative n)) :
    parseVersion (.lit 45 :: (digitBytes n).map .lit) = .ok (.relative n) := by
  obtain ⟨hne, hlen, hall, hfold⟩ := digitBytes_version h.2
  rw [parseVersion, if_neg (by intro h; cases h)]
  simp only [map_cons, map_literal_lits, literal, List.head?_cons, tail_cons, if_true,
    if_neg hne]
  rw [if_neg (by simp [hall]; omega), hfold, if_neg (by have := h.1; omega), if_neg (by have := h.2; omega)]

theorem semi_not_mem_lits (l : List UInt8) : Tok.semi ∉ l.map Tok.lit := by
  intro h
  obtain ⟨c, -, h⟩ := mem_map.mp h
  cases h

variable {version : Version}

theorem parseFile_version (hv : InRange version) :
    parseFile level (bodyToks a b ++ versionToks version) = .ok ⟨bodyName a b, version⟩ := by
  cases version with
  | highest =>
    rw [versionToks, append_nil]
    exact parseFile_none
  | exact n =>
    rw [versionToks, parseFile_semi (semi_not_mem_lits _), parseVersion_exact hv]
    rfl
  | relative n =>
    have hsemi : Tok.semi ∉ Tok.lit 45 :: (digitBytes n).map Tok.lit :=
      semi_not_mem_lits (45 :: digitBytes n)
    rw [versionToks, parseFile_semi hsemi, parseVersion_relative hv]
    rfl
  | all =>
    rw [versionToks, parseFile_semi (by decide)]
    rfl

/-! ## Whole specifications -/

/-- The delimiters that a name and its version do not have. -/
def Tok.outer (t : Tok) : Prop := t ∈ [Tok.bra, .ket, .less, .greater, .colon]

theorem not_outer_lit (c : UInt8) : ¬ (Tok.lit c).outer := by
  simp [Tok.outer, Tok.bra, Tok.ket, Tok.less, Tok.greater, Tok.colon]

theorem not_outer_body (h : t ∈ bodyToks a b) : ¬ t.outer := by
  rcases mem_bodyToks h with rfl | ⟨c, rfl⟩
  · unfold Tok.outer
    decide
  · exact not_outer_lit c

theorem not_outer_version (h : t ∈ versionToks version) : ¬ t.outer := by
  have hsemi : ¬ Tok.semi.outer := by
    unfold Tok.outer
    decide
  have hlits : ∀ l : List UInt8, ∀ t ∈ Tok.semi :: l.map Tok.lit, ¬ t.outer := by
    intro l t ht
    rcases mem_cons.mp ht with rfl | ht
    · exact hsemi
    · obtain ⟨c, -, rfl⟩ := mem_map.mp ht
      exact not_outer_lit c
  cases version with
  | highest => cases h
  | exact n => exact hlits _ t h
  | relative n => exact hlits (45 :: digitBytes n) t h
  | all =>
    revert t
    unfold Tok.outer
    decide

theorem parse_of_tokens {dirs : List (List UInt8)} (h : tokenize level s = .ok toks)
    (hcolon : .colon ∉ toks) (hdirs : parseDirs toks = .ok (dirs, rest)) (hrest : ∀ t ∈ rest, ¬ t.outer) :
    parse level s =
      if rest = [] then .ok ⟨dirs, none⟩
      else (parseFile level rest).map fun file => ⟨dirs, some file⟩ := by
  have hany : (rest.any (· ∈ [Tok.bra, .ket, .less, .greater, .colon])) = false := by
    rw [any_eq_false]
    intro t ht
    simp only [decide_eq_true_eq]
    exact hrest t ht
  rw [parse, h]
  change (parseDirs (afterDevice toks) >>= _) = _
  rw [afterDevice, if_neg hcolon, hdirs]
  change (if _ then _ else _) = _
  rw [if_neg (by rw [hany]; decide)]
  cases parseFile level rest <;> rfl

variable {e : String}

theorem parse_error (h : tokenize level s = .error e) : parse level s = .error e := by
  rw [parse, h]
  rfl

theorem parse_dirs_error (h : tokenize level s = .ok toks) (hcolon : .colon ∉ toks)
    (hdirs : parseDirs toks = .error e) :
    parse level s = .error e := by
  rw [parse, h]
  change (parseDirs (afterDevice toks) >>= _) = _
  rw [afterDevice, if_neg hcolon, hdirs]
  rfl

theorem parseDirs_brackets {inner : List Tok} (h : .ket ∉ inner) :
    parseDirs (.bra :: (inner ++ .ket :: rest)) =
      (components inner.length [] inner).map fun dirs => (belowMfd dirs, rest) := by
  have htake : (inner ++ .ket :: rest).takeWhile (· ≠ .ket) = inner := by
    rw [takeWhile_append_of_pos]
    · simp
    · intro t ht
      simp only [ne_eq, decide_not, Bool.not_eq_true', decide_eq_false_iff_not]
      rintro rfl
      exact h ht
  have hdrop : (inner ++ .ket :: rest).drop (inner.length + 1) = rest := by simp
  have hmem : Tok.ket ∈ inner ++ .ket :: rest := by simp
  rw [parseDirs, if_pos (.inl rfl), if_pos rfl, if_pos hmem]
  simp only [htake, hdrop]
  cases components inner.length [] inner <;> rfl

theorem parseDirs_none (h : ¬ t.outer) :
    parseDirs (t :: rest) = .ok ([], t :: rest) := by
  rw [parseDirs, if_neg]
  rintro (rfl | rfl) <;> exact h (by unfold Tok.outer; decide)

/-! ## Names that may be created -/

/-- The bytes a name may have, but for its dots. -/
def Allowed (level : Level) (c : UInt8) : Prop :=
  match level with
  | .ods2 => ods2Char c = true
  | .ods5 => ods5Bad c = false ∨ c = dot

theorem split_append {n t : List UInt8} (ht : dot ∉ t) : split (n ++ dot :: t) = (n, t) := by
  have htake : ((n ++ dot :: t).reverse.takeWhile (· != dot)).reverse = t := by
    rw [reverse_append, reverse_cons, append_assoc, takeWhile_append_of_pos]
    · simp
    · intro c hc
      simp only [bne_iff_ne, ne_eq]
      rintro rfl
      exact ht (mem_reverse.mp hc)
  have hmem : dot ∈ n ++ dot :: t := by simp
  rw [split, if_pos hmem]
  simp only [htake]
  congr 1
  have hlen : (n ++ dot :: t).length - t.length - 1 = n.length := by
    rw [length_append, length_cons]
    omega
  rw [hlen, take_left']
  rfl

theorem exists_last_dot (h : dot ∈ name) :
    ∃ n t, name = n ++ dot :: t ∧ dot ∉ t := by
  obtain ⟨t, n, hrev, ht⟩ := eq_append_cons_of_mem (mem_reverse.mpr h)
  refine ⟨n.reverse, t.reverse, ?_, fun hmem => ht (mem_reverse.mp hmem)⟩
  rw [← reverse_reverse name, hrev]
  simp

theorem validate_ok (h : validate level name = .ok ()) :
    ∃ n t, name = n ++ dot :: t ∧ dot ∉ t ∧ (∀ c ∈ n, Allowed level c) ∧ ∀ c ∈ t, Allowed level c := by
  rw [validate] at h
  by_cases hdot : dot ∈ name
  swap
  · rw [if_pos hdot] at h
    cases h
  rw [if_neg (not_not.mpr hdot)] at h
  obtain ⟨n, t, rfl, ht⟩ := exists_last_dot hdot
  rw [split_append ht] at h
  refine ⟨n, t, rfl, ht, ?_⟩
  cases level with
  | ods2 =>
    simp only at h
    split_ifs at h with hlen hall
    rw [all_append, Bool.and_eq_true, all_eq_true, all_eq_true] at hall
    exact hall
  | ods5 =>
    simp only at h
    split_ifs at h with hlen hbad
    have hok : ∀ c ∈ n ++ dot :: t, ods5Bad c = false := by
      intro c hc
      rw [Bool.not_eq_true, any_eq_false] at hbad
      exact Bool.not_eq_true _ ▸ hbad c hc
    exact ⟨fun c hc => .inl (hok c (mem_append_left _ hc)),
      fun c hc => .inl (hok c (mem_append_right _ (mem_cons_of_mem _ hc)))⟩

theorem yields_allowed (h : Allowed level c) :
    Yields (token level) (displayChar level false c.toNat) (.ok [.lit c]) := by
  cases level with
  | ods2 => exact yields_displayChar_ods2 h false
  | ods5 =>
    by_cases hdot : c = dot
    · rw [hdot]
      exact yields_caret (c := '.') (by decide)
    · exact yields_displayChar_ods5 (h.resolve_right hdot) hdot false

theorem yields_display {n t : List UInt8} (ht : dot ∉ t) (hn : ∀ c ∈ n, Allowed level c)
    (ht' : ∀ c ∈ t, Allowed level c) {ty : NameType} (hty : ty ≠ .ucs2) :
    Yields (token level) (display level (n ++ dot :: t) ty) (.ok (bodyToks n (some t))) := by
  have hchars : chars (n ++ dot :: t) ty = n.map UInt8.toNat ++ 46 :: t.map UInt8.toNat := by
    cases ty with
    | ucs2 => exact absurd rfl hty
    | ods2 | isl1 => exact map_append
  have hlits : ∀ l : List UInt8, (∀ c ∈ l, Allowed level c) →
      Yields (token level) ((l.map UInt8.toNat).flatMap (displayChar level false))
        (.ok (l.map Tok.lit)) := by
    intro l hl
    have h := Yields.flatMap fun c hc => yields_allowed (hl c hc)
    rwa [← map_eq_flatMap, ← flatMap_map] at h
  have hdot : (46 : ℕ) ∉ t.map UInt8.toNat := by
    intro h
    obtain ⟨c, hc, h⟩ := mem_map.mp h
    exact ht ((UInt8.toNat_inj.mp (show c.toNat = dot.toNat from h)) ▸ hc)
  rw [display, hchars, displayChars_split hdot]
  have h := ((hlits n hn).append yields_displayChar_dot).append (hlits t ht')
  simpa [bodyToks, Except.map] using h

/-- **A name that may be created is parsed back from what is printed.** -/
theorem parse_display {level : Level} {name : List UInt8} {t : NameType} {version : Version}
    (hname : validate level name = .ok ()) (ht : t ≠ .ucs2) (hv : InRange version) :
    parse level (display level name t ++ versionText version) = .ok ⟨[], some ⟨name, version⟩⟩ := by
  obtain ⟨n, ty, rfl, hdot, hn, hty⟩ := validate_ok hname
  have htoks : tokenize level (display level (n ++ dot :: ty) t ++ versionText version) =
      .ok (bodyToks n (some ty) ++ versionToks version) :=
    ((yields_display hdot hn hty ht).append (yields_version version)).all
  have houter : ∀ k ∈ bodyToks n (some ty) ++ versionToks version, ¬ k.outer := by
    intro k hk
    rcases mem_append.mp hk with hk | hk
    exacts [not_outer_body hk, not_outer_version hk]
  have hne : bodyToks n (some ty) ++ versionToks version ≠ [] := by simp [bodyToks]
  obtain ⟨k, rest, hk⟩ := exists_cons_of_ne_nil hne
  have hdirs : parseDirs (bodyToks n (some ty) ++ versionToks version) =
      .ok ([], bodyToks n (some ty) ++ versionToks version) := by
    rw [hk] at houter ⊢
    exact parseDirs_none (houter k mem_cons_self)
  have hcolon : Tok.colon ∉ bodyToks n (some ty) ++ versionToks version := fun h =>
    houter _ h (by unfold Tok.outer; decide)
  rw [parse_of_tokens htoks hcolon hdirs houter, if_neg hne, parseFile_version hv]
  rfl

/-- "A.b ;.^" and version 3, printed "A^.b^_^;.^^;3". -/
theorem parse_display_escapes :
    validate .ods5 [65, 46, 98, 32, 59, 46, 94] = .ok () ∧
    parse .ods5 (display .ods5 [65, 46, 98, 32, 59, 46, 94] .isl1 ++ versionText (.exact 3)) =
      .ok ⟨[], some ⟨[65, 46, 98, 32, 59, 46, 94], .exact 3⟩⟩ :=
  ⟨rfl, parse_display rfl (by decide) (by decide)⟩

end Name

end Ods
