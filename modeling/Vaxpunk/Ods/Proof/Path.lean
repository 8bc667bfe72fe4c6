/-
  What `parse` makes of a Unix path that `to_vms` converted.

  A path's directories and file come back as they are, except where the file
  specification means something else: the MFD's name in front, a `...` by itself, and a
  version after the file's last semicolon (`Path.meaning`).
-/
import Vaxpunk.Ods.Proof.Parse

namespace Ods

open List

variable {s f d : List Char} {c : Char} {dirs : List (List Char)} {file : Option (List Char)}

namespace Path

open Name (Tok token parse parseVersion bodyToks bodyName belowMfd components latin1)
open Scan (Yields Checks)

/-! ## What a path means -/

/-- A component as the bytes of a name. -/
def bytes (s : List Char) : List UInt8 := s.map fun c => UInt8.ofNat c.toNat

/-- A name with the dot it may lack. -/
def withDot (name : List UInt8) : List UInt8 := if Name.dot ∈ name then name else name ++ [Name.dot]

def version (f : List Char) : Except String Version :=
  match (nameVersion f).2 with
  | [] => .ok .highest
  | _ :: v => parseVersion ((bytes v).map .lit)

/-- All its characters are bytes. -/
def Latin (s : List Char) : Prop := ∀ c ∈ s, c.toNat < 256

instance (s : List Char) : Decidable (Latin s) := inferInstanceAs (Decidable (∀ c ∈ s, c.toNat < 256))

/-- What a file means, below these directories. -/
def fileMeaning (below : List (List UInt8)) : Option (List Char) → Except String Spec
  | none => .ok ⟨below, none⟩
  | some f => (version f).map fun v => ⟨below, some ⟨withDot (bytes (nameVersion f).1), v⟩⟩

/-- A `...` is the only directory, or there is none. -/
def LoneDots (dirs : List (List Char)) : Prop := dots ∈ dirs → dirs = [dots]

/-- What a path with these directories and this file means.  A `...` beside other
    directories is not given a meaning. -/
def meaning (dirs : List (List Char)) (file : Option (List Char)) : Except String Spec :=
  if ¬ ∀ s ∈ dirs ++ file.toList, Latin s then .error "character outside ISO Latin-1"
  else if dirs = [dots] then fileMeaning [ELLIPSIS] file
  else fileMeaning (belowMfd (dirs.map bytes)) file

/-! ## Escapes -/

def wildcards : List Char := ['*', '%', '?']

/-- A character as `escape` writes it, unless it is a type's dot. -/
def escapeChar (c : Char) : List Char :=
  if c ∈ delimiters then ['^', c] else if c = ' ' then ['^', '_'] else [c]

theorem escape_nodot {typeDot : Bool} (h : typeDot = true → '.' ∉ s) :
    escape typeDot s = s.flatMap escapeChar := by
  induction s with
  | nil => rfl
  | cons c s ih =>
    have hrest : typeDot = true → '.' ∉ s := fun ht hs => h ht (mem_cons_of_mem _ hs)
    have hno : ¬ (c = '.' ∧ typeDot ∧ '.' ∉ s) := fun hc => h hc.2.1 (hc.1 ▸ mem_cons_self)
    rw [escape, if_neg hno, ih hrest]
    rfl

theorem escape_dot {a b : List Char} (hb : '.' ∉ b) :
    escape true (a ++ '.' :: b) = a.flatMap escapeChar ++ '.' :: b.flatMap escapeChar := by
  induction a with
  | nil =>
    have hyes : '.' = '.' ∧ true = true ∧ '.' ∉ b := ⟨rfl, rfl, hb⟩
    rw [nil_append, escape, if_pos hyes, escape_nodot fun _ => hb]
    rfl
  | cons c a ih =>
    have hno : ¬ (c = '.' ∧ true = true ∧ '.' ∉ a ++ '.' :: b) := fun hc => hc.2.2 (by simp)
    rw [cons_append, escape, if_neg hno, ih, flatMap_cons, append_assoc]
    rfl

theorem yields_escapeChar (h : c ∉ wildcards) :
    Yields (token .ods5) (escapeChar c) ((latin1 c).map fun b => [.lit b]) := by
  unfold escapeChar
  split_ifs with hdelim hspace
  · have hlt : ∀ c ∈ delimiters, c.toNat < 256 := by simp [delimiters]
    rw [latin1, if_pos (hlt c hdelim)]
    exact Name.yields_caret (List.Sublist.subset (by decide) hdelim)
  · have hlatin : latin1 ' ' = .ok (UInt8.ofNat ' '.toNat) := if_pos (by decide)
    have hbyte : UInt8.ofNat ' '.toNat = 32 := rfl
    rw [hspace, hlatin, hbyte]
    exact Name.yields_space
  · refine Name.yields_plain (.inl ?_) ?_ rfl
    · rintro rfl
      exact hdelim (by decide)
    · revert h hdelim
      simp only [wildcards, delimiters, Name.delimiters, mem_cons, not_mem_nil]
      tauto

/-- The error of a character that is no byte. -/
def notLatin : String := "character outside ISO Latin-1"

theorem checks_escaped (h : ∀ c ∈ s, c ∉ wildcards) :
    Checks (token .ods5) notLatin (Latin s) (s.flatMap escapeChar) ((bytes s).map .lit) := by
  rw [bytes, map_map, map_eq_flatMap]
  refine .flatMap fun c hc => ⟨fun hlt => ?_, fun hlt => ?_⟩
  · have hy := yields_escapeChar (h c hc)
    rwa [latin1, if_pos hlt] at hy
  · have hy := yields_escapeChar (h c hc)
    rwa [latin1, if_neg hlt] at hy

theorem latin_split {a b : List Char} (hc : c.toNat < 256) : Latin (a ++ c :: b) ↔ Latin a ∧ Latin b := by
  rw [Latin, forall_mem_append, forall_mem_cons, and_iff_right hc]
  rfl

theorem bytes_append (a b : List Char) : bytes (a ++ b) = bytes a ++ bytes b := map_append

theorem dot_mem_bytes (h : Latin s) : Name.dot ∈ bytes s ↔ '.' ∈ s := by
  rw [bytes, mem_map]
  constructor
  · rintro ⟨c, hc, hdot⟩
    have hnat : (UInt8.ofNat c.toNat).toNat = 46 := by
      rw [hdot]
      rfl
    rw [UInt8.toNat_ofNat', Nat.mod_eq_of_lt (h c hc)] at hnat
    exact (Char.toNat_inj.mp (show c.toNat = '.'.toNat from hnat)) ▸ hc
  · exact fun hc => ⟨'.', hc, rfl⟩

theorem exists_last (h : c ∈ s) : ∃ a b, s = a ++ c :: b ∧ c ∉ b := by
  obtain ⟨b, a, hrev, hb⟩ := eq_append_cons_of_mem (mem_reverse.mpr h)
  refine ⟨a.reverse, b.reverse, ?_, fun hmem => hb (mem_reverse.mp hmem)⟩
  rw [← reverse_reverse s, hrev]
  simp

theorem checks_name (h : ∀ c ∈ s, c ∉ wildcards) :
    ∃ a b, (Latin s → bodyName a b = withDot (bytes s)) ∧ (s ≠ [] → bodyToks a b ≠ []) ∧
      Checks (token .ods5) notLatin (Latin s) (escape true s) (bodyToks a b) := by
  by_cases hdot : '.' ∈ s
  · obtain ⟨a, b, rfl, hb⟩ := exists_last hdot
    have ha := checks_escaped fun c hc => h c (mem_append_left _ hc)
    have hb' := checks_escaped fun c hc => h c (mem_append_right a (mem_cons_of_mem _ hc))
    refine ⟨bytes a, some (bytes b), fun hlatin => ?_, fun _ => by simp [bodyToks], ?_⟩
    · rw [withDot, if_pos ((dot_mem_bytes hlatin).mpr hdot), bytes_append]
      rfl
    · rw [escape_dot hb, latin_split (by decide)]
      exact ha.append (Name.yields_dot.append_checks hb')
  · refine ⟨bytes s, none, fun hlatin => ?_, fun hne => by simpa [bodyToks, bytes] using hne, ?_⟩
    · rw [withDot, if_neg (fun hd => hdot ((dot_mem_bytes hlatin).mp hd))]
      rfl
    · rw [escape_nodot fun _ => hdot, bodyToks, Option.elim_none, append_nil]
      exact checks_escaped h

/-! ## The file -/

/-- The tokens of a version with its semicolon. -/
def versionToks (f : List Char) : List Tok :=
  match (nameVersion f).2 with
  | [] => []
  | _ :: v => .semi :: (bytes v).map .lit

theorem yields_versionChar (h : versionChar c = true) (hwild : c ∉ wildcards) :
    Yields (token .ods5) [c] (.ok [.lit (UInt8.ofNat c.toNat)]) := by
  simp only [versionChar, Bool.or_eq_true, Bool.and_eq_true, decide_eq_true_eq] at h
  rcases h with (hdigit | rfl) | rfl
  · refine Name.yields_digit ?_
    simp only [Char.isDigit, Bool.and_eq_true, decide_eq_true_eq]
    exact hdigit
  · exact Name.yields_plain (.inl (by decide)) (by decide) (r := .ok 45) rfl
  · exact absurd (by decide) hwild

theorem versionChar_latin (h : versionChar c = true) : c.toNat < 256 := by
  simp only [versionChar, Bool.or_eq_true, Bool.and_eq_true, decide_eq_true_eq] at h
  rcases h with (hdigit | rfl) | rfl
  · have hle : c.toNat ≤ '9'.toNat := hdigit.2
    exact hle.trans_lt (by decide)
  · decide
  · decide

theorem nameVersion_cases (f : List Char) :
    nameVersion f = (f, []) ∨
    ∃ n v, f = n ++ ';' :: v ∧ nameVersion f = (n, ';' :: v) ∧ ∀ c ∈ v, versionChar c = true := by
  cases hcut : Name.cutLast (· = ';') f with
  | none =>
    left
    rw [nameVersion, hcut]
  | some nv =>
    obtain ⟨n, v⟩ := nv
    obtain ⟨x, hf, hx⟩ := Name.eq_of_cutLast hcut
    rw [of_decide_eq_true hx] at hf
    rw [nameVersion, hcut]
    simp only
    split_ifs with hv
    · exact .inr ⟨n, v, hf, rfl, all_eq_true.mp hv⟩
    · exact .inl rfl

theorem checks_file (hne : f ≠ []) (hwild : ∀ c ∈ f, c ∉ wildcards) :
    ∃ a b, (Latin f → bodyName a b = withDot (bytes (nameVersion f).1)) ∧ bodyToks a b ++ versionToks f ≠ [] ∧
      Checks (token .ods5) notLatin (Latin f) (escape true (nameVersion f).1 ++ (nameVersion f).2)
        (bodyToks a b ++ versionToks f) := by
  rcases nameVersion_cases f with h | ⟨n, v, rfl, h, hv⟩
  · obtain ⟨a, b, hab, htoks, hy⟩ := checks_name hwild
    rw [versionToks, h]
    simp only [append_nil]
    exact ⟨a, b, hab, htoks hne, hy⟩
  · obtain ⟨a, b, hab, -, hy⟩ := checks_name fun c hc => hwild c (mem_append_left _ hc)
    have hsemi : Yields (token .ods5) [';'] (.ok [.semi]) := Name.yields_sep (c := ';') (by decide)
    have hver : Yields (token .ods5) v (.ok ((bytes v).map .lit)) := by
      rw [bytes, map_map]
      exact .map fun c hc => yields_versionChar (hv c hc)
        (hwild c (mem_append_right _ (mem_cons_of_mem _ hc)))
    have hlatin : Latin v := fun c hc => versionChar_latin (hv c hc)
    rw [versionToks, h, latin_split (by decide)]
    exact ⟨a, b, fun hn => hab hn.1, by simp, hy.append ((hsemi.append hver).checks hlatin)⟩

theorem parseFile_file {a : List UInt8} {b : Option (List UInt8)}
    (h : bodyName a b = withDot (bytes (nameVersion f).1)) :
    Name.parseFile .ods5 (bodyToks a b ++ versionToks f) =
      (version f).map fun v => ⟨withDot (bytes (nameVersion f).1), v⟩ := by
  rcases nameVersion_cases f with hf | ⟨n, v, rfl, hf, -⟩
  · rw [versionToks, version, hf, append_nil, Name.parseFile_none, h, hf]
    rfl
  · rw [versionToks, version, hf]
    rw [hf] at h
    rw [Name.parseFile_semi (Name.semi_not_mem_lits _), h]

/-! ## The directories -/

/-- A directory as `to_vms` writes it. -/
def dirText (d : List Char) : List Char := if d = dots then d else escape false d

def dirToks (d : List Char) : List Tok :=
  if d = dots then [.dot, .dot, .dot] else (bytes d).map .lit

theorem checks_dir (hwild : ∀ c ∈ d, c ∉ wildcards) :
    Checks (token .ods5) notLatin (Latin d) (dirText d) (dirToks d) := by
  unfold dirText dirToks
  split_ifs with hdots
  · rw [hdots]
    exact (Name.yields_dot.append (Name.yields_dot.append Name.yields_dot)).checks (by simp [Latin, dots])
  · rw [escape_nodot (by simp)]
    exact checks_escaped hwild

theorem intercalate_cons {α : Type} (s : α) (x : List α) (xs : List (List α)) :
    [s].intercalate (x :: xs) = x ++ xs.flatMap (s :: ·) := by
  induction xs generalizing x with
  | nil => simp [List.intercalate]
  | cons y xs ih =>
    have h : [s].intercalate (x :: y :: xs) = x ++ [s] ++ [s].intercalate (y :: xs) := by
      simp [List.intercalate, List.intersperse]
    rw [h, ih, flatMap_cons]
    simp

/-- The tokens of directories with dots between them. -/
def dirsToks : List (List Char) → List Tok
  | [] => Name.mfdName.map .lit
  | d :: ds => dirToks d ++ ds.flatMap fun d => .dot :: dirToks d

/-- The text between the brackets. -/
def dirsText (dirs : List (List Char)) : List Char :=
  if dirs = [] then ['0', '0', '0', '0', '0', '0'] else ['.'].intercalate (dirs.map dirText)

theorem checks_dirs (hwild : ∀ d ∈ dirs, ∀ c ∈ d, c ∉ wildcards) :
    Checks (token .ods5) notLatin (∀ d ∈ dirs, Latin d) (dirsText dirs) (dirsToks dirs) := by
  cases dirs with
  | nil =>
    have hzero : Yields (token .ods5) ['0'] (.ok [.lit 48]) := Name.yields_digit (c := '0') rfl
    exact (hzero.append (hzero.append (hzero.append (hzero.append (hzero.append hzero))))).checks nofun
  | cons d ds =>
    rw [dirsText, if_neg (by simp), map_cons, intercalate_cons, flatMap_map, forall_mem_cons]
    exact (checks_dir (hwild d mem_cons_self)).append
      (.flatMap fun e he => Name.yields_dot.append_checks (checks_dir (hwild e (mem_cons_of_mem _ he))))

/-! ## The components between the brackets -/

theorem components_lits (d : List UInt8) (fuel : ℕ) (comp : List UInt8) (rest : List Tok) :
    components (d.length + fuel) comp (d.map .lit ++ rest) = components fuel (comp ++ d) rest := by
  induction d generalizing comp with
  | nil => simp
  | cons c d ih =>
    have hfuel : (c :: d).length + fuel = d.length + fuel + 1 := by
      rw [length_cons]
      omega
    rw [hfuel, map_cons, cons_append, components, if_neg Tok.noConfusion, if_neg, ih]
    · simp [Name.literal]
    · simp [Tok.bra, Tok.ket, Tok.less, Tok.greater, Tok.semi, Tok.colon]

variable {comp : List UInt8} {rest : List Tok} {fuel : ℕ}

theorem components_dot (h : rest.head? ≠ some .dot) : components (fuel + 1) comp (.dot :: rest) =
      (components fuel [] rest).map (Name.ended comp ++ ·) := by
  have hdots : ((Tok.dot :: rest).takeWhile (· = .dot)).length = 1 := by
    cases rest with
    | nil => rfl
    | cons t rest =>
      have ht : t ≠ .dot := fun ht => h (by rw [ht]; rfl)
      simp [List.takeWhile, ht]
  rw [components, if_pos rfl]
  simp only [hdots, if_true]
  cases components fuel [] rest <;> rfl

/-- The directories, each after a dot. -/
def afterDots (dirs : List (List UInt8)) : List Tok := dirs.flatMap fun d => .dot :: d.map .lit

theorem afterDots_cons (d : List UInt8) (ds : List (List UInt8)) :
    afterDots (d :: ds) = .dot :: (d.map .lit ++ afterDots ds) := rfl

theorem head_lits {d : List UInt8} (hd : d ≠ []) (rest : List Tok) :
    (d.map Tok.lit ++ rest).head? ≠ some .dot := by
  obtain ⟨c, d, rfl⟩ := exists_cons_of_ne_nil hd
  intro h
  cases h

theorem ended_of_ne {d : List UInt8} (hd : d ≠ []) : Name.ended d = [d] := if_neg hd

theorem components_cons {d : List UInt8} (hd : d ≠ []) (fuel : ℕ) (comp : List UInt8) (rest : List Tok) :
    components (d.length + fuel + 1) comp (.dot :: (d.map .lit ++ rest)) =
      (components fuel d rest).map (Name.ended comp ++ ·) := by
  rw [components_dot (head_lits hd rest), components_lits, nil_append]

variable {ds : List (List UInt8)}

theorem components_afterDots (hds : ∀ d ∈ ds, d ≠ []) (comp : List UInt8) :
    components (afterDots ds).length comp (afterDots ds) = .ok (Name.ended comp ++ ds) := by
  induction ds generalizing comp with
  | nil => simp [afterDots, components]
  | cons d ds ih =>
    have hd : d ≠ [] := hds d mem_cons_self
    have hlen : (afterDots (d :: ds)).length = d.length + (afterDots ds).length + 1 := by
      simp [afterDots_cons]
    rw [hlen, afterDots_cons, components_cons hd, ih fun e he => hds e (mem_cons_of_mem _ he),
      ended_of_ne hd]
    rfl

theorem dirsToks_plain {ds : List (List Char)} (hd : d ≠ dots) (hds : dots ∉ ds) :
    dirsToks (d :: ds) = (bytes d).map .lit ++ afterDots (ds.map bytes) := by
  have hpre : ds.flatMap (fun d => Tok.dot :: dirToks d) = afterDots (ds.map bytes) := by
    rw [afterDots, flatMap_map]
    refine flatMap_congr fun e he => ?_
    have hne : e ≠ dots := by
      rintro rfl
      exact hds he
    rw [dirToks, if_neg hne]
  rw [dirsToks, dirToks, if_neg hd, hpre]

theorem bytes_ne_nil (h : d ≠ []) : bytes d ≠ [] := by
  simpa [bytes] using h

theorem components_dirs (hne : ∀ d ∈ dirs, d ≠ []) (hdots : dots ∉ dirs) :
    ∃ below, components (dirsToks dirs).length [] (dirsToks dirs) = .ok below ∧
      belowMfd below = belowMfd (dirs.map bytes) := by
  cases dirs with
  | nil => exact ⟨[Name.mfdName], rfl, rfl⟩
  | cons d ds =>
    rw [mem_cons, not_or] at hdots
    have htoks := dirsToks_plain (fun h => hdots.1 h.symm) hdots.2
    have hbytes : ∀ e ∈ ds.map bytes, e ≠ [] := by
      intro e he
      obtain ⟨e', he', rfl⟩ := mem_map.mp he
      exact bytes_ne_nil (hne e' (mem_cons_of_mem _ he'))
    rw [htoks, length_append, length_map, components_lits, components_afterDots hbytes,
      nil_append, ended_of_ne (bytes_ne_nil (hne d mem_cons_self))]
    exact ⟨_, rfl, rfl⟩

/-! ## The whole path -/

variable {t : Tok}

theorem mem_dirsToks (h : t ∈ dirsToks dirs) : t = .dot ∨ ∃ c, t = .lit c := by
  have hdir : ∀ (d : List Char) (t : Tok), t ∈ dirToks d → t = .dot ∨ ∃ c, t = .lit c := by
    intro d t ht
    unfold dirToks at ht
    split_ifs at ht
    · exact .inl (by simpa using ht)
    · obtain ⟨c, -, rfl⟩ := mem_map.mp ht
      exact .inr ⟨c, rfl⟩
  cases dirs with
  | nil =>
    obtain ⟨c, -, rfl⟩ := mem_map.mp h
    exact .inr ⟨c, rfl⟩
  | cons d ds =>
    rcases mem_append.mp h with h | h
    · exact hdir d t h
    · obtain ⟨e, -, h⟩ := mem_flatMap.mp h
      rcases mem_cons.mp h with h | h
      exacts [.inl h, hdir e t h]

theorem not_mem_dirsToks {c : UInt8} (hc : c ≠ Name.dot) :
    Tok.sep c ∉ dirsToks dirs := by
  intro h
  rcases mem_dirsToks h with h | ⟨d, h⟩
  · exact hc (Tok.sep.inj h)
  · cases h

/-- What is after the brackets. -/
def fileText (file : Option (List Char)) : List Char :=
  file.elim [] fun f => escape true (nameVersion f).1 ++ (nameVersion f).2

theorem toVms_eq {p : List Char} (hp : p.head? = some '/') :
    toVms p = ['['] ++ (dirsText (dirsFile p).1 ++ ([']'] ++ fileText (dirsFile p).2)) := by
  have hslash : ¬ p.head? ≠ some '/' := not_not.mpr hp
  rw [toVms, if_neg hslash]
  cases dirsFile p with
  | mk dirs file =>
    cases file <;> simp only [append_assoc] <;> rfl

theorem dirsFile_parts (p : List Char) : (dirsFile p).1 ++ (dirsFile p).2.toList = parts p := by
  unfold dirsFile
  split_ifs with hslash
  · simp
  · split
    · next file hlast =>
      obtain ⟨pre, hpre⟩ := List.getLast?_eq_some_iff.mp hlast
      simp [hpre]
    · simp

theorem not_outer_versionToks (h : t ∈ versionToks f) : ¬ t.outer := by
  unfold versionToks at h
  split at h
  · cases h
  · rcases mem_cons.mp h with rfl | h
    · unfold Tok.outer
      decide
    · obtain ⟨c, -, rfl⟩ := mem_map.mp h
      exact Name.not_outer_lit c

theorem checks_fileText (hne : ∀ f ∈ file, f ≠ []) (hwild : ∀ f ∈ file, ∀ c ∈ f, c ∉ wildcards) :
    ∃ toks, Checks (token .ods5) notLatin (∀ f ∈ file, Latin f) (fileText file) toks ∧ (∀ t ∈ toks, ¬ t.outer) ∧
      ((∀ f ∈ file, Latin f) → ∀ below, (if toks = [] then .ok ⟨below, none⟩
        else (Name.parseFile .ods5 toks).map fun f => ⟨below, some f⟩) = fileMeaning below file) := by
  cases file with
  | none => exact ⟨[], Yields.nil.checks nofun, by simp, fun _ _ => rfl⟩
  | some f =>
    obtain ⟨a, b, hab, htoks, hy⟩ := checks_file (hne f rfl) (hwild f rfl)
    have hiff : (∀ g ∈ some f, Latin g) ↔ Latin f := by simp
    rw [hiff]
    refine ⟨bodyToks a b ++ versionToks f, hy, fun t ht => ?_, fun hlatin below => ?_⟩
    · rcases mem_append.mp ht with ht | ht
      exacts [Name.not_outer_body ht, not_outer_versionToks ht]
    · rw [if_neg htoks, parseFile_file (hab hlatin), fileMeaning]
      cases version f <;> rfl

theorem yields_bra : Yields (token .ods5) ['['] (.ok [.bra]) := Name.yields_sep (c := '[') (by decide)

theorem yields_ket : Yields (token .ods5) [']'] (.ok [.ket]) := Name.yields_sep (c := ']') (by decide)

theorem parse_text (hne : ∀ s ∈ dirs ++ file.toList, s ≠ [])
    (hwild : ∀ s ∈ dirs ++ file.toList, ∀ c ∈ s, c ∉ wildcards) :
    parse .ods5 (['['] ++ (dirsText dirs ++ ([']'] ++ fileText file))) =
      if ∀ s ∈ dirs ++ file.toList, Latin s then
        components (dirsToks dirs).length [] (dirsToks dirs) >>= fun below => fileMeaning (belowMfd below) file
      else .error notLatin := by
  simp only [forall_mem_append, Option.mem_toList] at hne hwild ⊢
  obtain ⟨toks, hy, houter, hmeaning⟩ := checks_fileText hne.2 hwild.2
  have hall := yields_bra.append_checks ((checks_dirs hwild.1).append (yields_ket.append_checks hy))
  split_ifs with hlatin
  · have htoks : Name.tokenize .ods5 (['['] ++ (dirsText dirs ++ ([']'] ++ fileText file))) =
        .ok (.bra :: (dirsToks dirs ++ .ket :: toks)) := (hall.1 hlatin).all
    have hcolon : Tok.colon ∉ Tok.bra :: (dirsToks dirs ++ .ket :: toks) := by
      have hin : Tok.colon ∉ dirsToks dirs := not_mem_dirsToks (by decide)
      have hout : Tok.colon ∉ toks := fun h => houter _ h (by unfold Tok.outer; decide)
      simp only [mem_cons, mem_append, not_or]
      exact ⟨by decide, hin, by decide, hout⟩
    have hket : Tok.ket ∉ dirsToks dirs := not_mem_dirsToks (by decide)
    have hbrackets : Name.parseDirs (.bra :: (dirsToks dirs ++ .ket :: toks)) = _ :=
      Name.parseDirs_brackets hket
    cases hcomp : components (dirsToks dirs).length [] (dirsToks dirs) with
    | error e =>
      rw [hcomp] at hbrackets
      exact Name.parse_dirs_error htoks hcolon hbrackets
    | ok below =>
      rw [hcomp] at hbrackets
      rw [Name.parse_of_tokens htoks hcolon hbrackets houter]
      exact hmeaning hlatin.2 (belowMfd below)
  · exact Name.parse_error (hall.2 hlatin).all

theorem parse_text_meaning (hne : ∀ s ∈ dirs ++ file.toList, s ≠ [])
    (hwild : ∀ s ∈ dirs ++ file.toList, ∀ c ∈ s, c ∉ wildcards) (hdots : LoneDots dirs) :
    parse .ods5 (['['] ++ (dirsText dirs ++ ([']'] ++ fileText file))) = meaning dirs file := by
  have hned : ∀ d ∈ dirs, d ≠ [] := fun d hd => hne d (mem_append_left _ hd)
  rw [parse_text hne hwild]
  unfold meaning
  split_ifs with hlatin hellipsis
  · rw [hellipsis]
    rfl
  · have hno : dots ∉ dirs := fun h => hellipsis (hdots h)
    obtain ⟨below, hcomp, hbelow⟩ := components_dirs hned hno
    rw [hcomp, ← hbelow]
    rfl
  · rfl

/-! ## Plain paths -/

theorem toNat_bytes (h : Latin s) : (bytes s).map UInt8.toNat = s.map Char.toNat := by
  rw [bytes, map_map]
  refine map_congr_left fun c hc => ?_
  rw [Function.comp_apply, UInt8.toNat_ofNat', Nat.mod_eq_of_lt (h c hc)]

theorem bytes_inj {s' : List Char} (h : Latin s) (h' : Latin s') (heq : bytes s = bytes s') :
    s = s' := by
  have hnat : s.map Char.toNat = s'.map Char.toNat := by rw [← toNat_bytes h, ← toNat_bytes h', heq]
  exact map_injective_iff.mpr (fun c d hcd => Char.toNat_inj.mp hcd) hnat

def mfd : List Char := ['0', '0', '0', '0', '0', '0']

/-- The path means its components: no first directory is the MFD's name, none is `...`,
    the file has no version, and all the characters are bytes. -/
structure Plain (dirs : List (List Char)) (file : Option (List Char)) : Prop where
  latin : ∀ s ∈ dirs ++ file.toList, Latin s
  dots : dots ∉ dirs
  mfd : dirs.head? ≠ some mfd
  version : ∀ f ∈ file, nameVersion f = (f, [])

theorem Plain.meaning (h : Plain dirs file) :
    meaning dirs file =
      .ok ⟨dirs.map bytes, file.map fun f => ⟨withDot (bytes f), .highest⟩⟩ := by
  have hellipsis : dirs ≠ [Path.dots] := by
    rintro rfl
    exact h.dots (by simp)
  have hbelow : belowMfd (dirs.map bytes) = dirs.map bytes := by
    refine if_neg fun hhead => ?_
    cases dirs with
    | nil => cases hhead
    | cons d ds =>
      have hmfd : Latin Path.mfd := by simp [Latin, Path.mfd]
      have hd : d = Path.mfd := bytes_inj (h.latin d (by simp)) hmfd (Option.some.inj hhead)
      exact h.mfd (by rw [hd]; rfl)
  rw [Path.meaning, if_neg (not_not.mpr h.latin), if_neg hellipsis, hbelow]
  cases file with
  | none => rfl
  | some f =>
    rw [fileMeaning, Path.version, h.version f rfl]
    rfl

/-- **A Unix path through `to_vms` and `parse`.**  For every path of components without
    wildcards, and without `...` beside other directories, what is parsed is what the path
    means, and if it is plain, exactly its components. -/
theorem parse_toVms {p : List Char} (hp : p.head? = some '/')
    (hwild : ∀ s ∈ parts p, ∀ c ∈ s, c ∉ wildcards) (hdots : LoneDots (dirsFile p).1) :
    parse .ods5 (toVms p) = meaning (dirsFile p).1 (dirsFile p).2 ∧
    (Plain (dirsFile p).1 (dirsFile p).2 → parse .ods5 (toVms p) =
      .ok ⟨(dirsFile p).1.map bytes, (dirsFile p).2.map fun f => ⟨withDot (bytes f), .highest⟩⟩) := by
  have hne : ∀ s ∈ parts p, s ≠ [] := fun s hs => of_decide_eq_true (mem_filter.mp hs).2
  rw [← dirsFile_parts] at hne hwild
  have hmeaning := parse_text_meaning hne hwild hdots
  rw [← toVms_eq hp] at hmeaning
  exact ⟨hmeaning, fun hplain => hmeaning.trans hplain.meaning⟩

/-- "/a b/c.d.e", a plain path. -/
theorem parse_toVms_plain :
    parse .ods5 (toVms ['/', 'a', ' ', 'b', '/', 'c', '.', 'd', '.', 'e']) =
      .ok ⟨[[97, 32, 98]], some ⟨[99, 46, 100, 46, 101], .highest⟩⟩ := by
  have hplain : Plain [['a', ' ', 'b']] (some ['c', '.', 'd', '.', 'e']) :=
    ⟨by simp [Latin], by decide, by decide, by decide⟩
  have hparts : parts ['/', 'a', ' ', 'b', '/', 'c', '.', 'd', '.', 'e'] =
      [['a', ' ', 'b'], ['c', '.', 'd', '.', 'e']] := by decide
  have hlone : LoneDots [['a', ' ', 'b']] := fun h => absurd h hplain.dots
  refine (parse_toVms rfl ?_ ?_).2 hplain
  · rw [hparts]
    simp [wildcards]
  · exact hlone

/-- "/000000/a" and "/a;5": the MFD's name is dropped, and the file has a version. -/
theorem parse_toVms_other :
    dirsFile ['/', '0', '0', '0', '0', '0', '0', '/', 'a'] = ([mfd], some ['a']) ∧
    parse .ods5 (toVms ['/', '0', '0', '0', '0', '0', '0', '/', 'a']) =
      .ok ⟨[], some ⟨[97, 46], .highest⟩⟩ ∧
    dirsFile ['/', 'a', ';', '5'] = ([], some ['a', ';', '5']) ∧
    parse .ods5 (toVms ['/', 'a', ';', '5']) = .ok ⟨[], some ⟨[97, 46], .exact 5⟩⟩ := by
  decide

end Path

end Ods
