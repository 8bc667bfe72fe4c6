/-
  File specifications (`name.rs`): parsing and printing them, and the Unix path form
  (`path.rs`).

  A text is the list of its characters.  A parsed name is bytes; what an unescaped
  wildcard stands for is a control character, which no name has.
-/
import Vaxpunk.Lib.Scan
import Vaxpunk.Ods.Name

namespace Ods

/-- `*` in a parsed pattern. -/
def ANY : UInt8 := 0x01

/-- `%` or `?` in a parsed pattern. -/
def ONE : UInt8 := 0x02

/-- A `...` directory component. -/
def ELLIPSIS : List UInt8 := [0x03]

structure FileName where
  /-- "NAME.TYPE", possibly with wildcards. -/
  name : List UInt8
  version : Version
  deriving DecidableEq, Repr

/-- A parsed file specification: the directory path below the MFD, and the file name
    if there is one.  Any device name is dropped. -/
structure Spec where
  dirs : List (List UInt8)
  file : Option FileName
  deriving DecidableEq, Repr

namespace Name

/-! ## Tokens -/

/-- A character to take literally, or an unescaped delimiter. -/
inductive Tok where
  | lit (c : UInt8)
  | sep (c : UInt8)
  deriving DecidableEq, Repr

/-- `to_digit(16)`. -/
def hex (c : Char) : Option ℕ :=
  if '0' ≤ c ∧ c ≤ '9' then some (c.toNat - 48)
  else if 'a' ≤ c ∧ c ≤ 'f' then some (c.toNat - 87)
  else if 'A' ≤ c ∧ c ≤ 'F' then some (c.toNat - 55)
  else none

def latin1 (c : Char) : Except String UInt8 :=
  if c.toNat < 256 then .ok (UInt8.ofNat c.toNat) else .error "character outside ISO Latin-1"

/-- The digits of a `^U` escape, `n` of them to come. -/
def ucs2Escape : ℕ → ℕ → List Char → Except String (ℕ × List Char)
  | 0, v, s => .ok (v, s)
  | _ + 1, _, [] => .error "short ^U escape"
  | n + 1, v, c :: s => match hex c with
    | none => .error "bad ^U escape"
    | some d => ucs2Escape n (v <<< 4 ||| d) s

/-- What follows a `^`: the byte it stands for, and the rest. -/
def unescape : List Char → Except String (UInt8 × List Char)
  | [] => .error "dangling ^"
  | c :: s =>
    if c = '_' ∨ c = ' ' then .ok (32, s)
    else if c = 'U' ∨ c = 'u' then do
      let (v, s) ← ucs2Escape 4 0 s
      if v < 256 then .ok (UInt8.ofNat v, s) else .error "UCS-2 names are not supported"
    else match hex c with
      | some hi => match s.head?.bind hex with
        | some lo => .ok (UInt8.ofNat (hi <<< 4 ||| lo), s.tail)
        | none => .error "bad ^ hex escape"
      | none => do
        let b ← latin1 c
        .ok (b, s)

/-- The characters that are delimiters when nothing escapes them. -/
def delimiters : List Char := ['[', ']', '<', '>', '.', ';', ':', '*', '%', '?']

/-- The token that starts with `c`, and the rest. -/
def token (level : Level) (c : Char) (s : List Char) : Except String (Tok × List Char) :=
  if c = '^' ∧ level = .ods5 then do
    let (b, s) ← unescape s
    .ok (.lit b, s)
  else if c ∈ delimiters then .ok (.sep (UInt8.ofNat c.toNat), s)
  else do
    let b ← latin1 (if level = .ods2 then c.toUpper else c)
    .ok (.lit b, s)

def tokenize (level : Level) (s : List Char) : Except String (List Tok) :=
  Scan.tokens (token level) s

/-- `[`, `]`, `<`, `>`, `;` and `:`, unescaped. -/
def Tok.bra : Tok := .sep 91
def Tok.ket : Tok := .sep 93
def Tok.less : Tok := .sep 60
def Tok.greater : Tok := .sep 62
def Tok.semi : Tok := .sep 59
def Tok.colon : Tok := .sep 58

/-- An unescaped dot. -/
def Tok.dot : Tok := .sep Name.dot

def literal : Tok → UInt8
  | .lit c => c
  | .sep c => if c = 42 then ANY else if c = 37 ∨ c = 63 then ONE else c

/-! ## Parsing -/

/-- What is before and after the last element with `p`. -/
def cutLast {α : Type} (p : α → Bool) : List α → Option (List α × List α)
  | [] => none
  | x :: xs => match cutLast p xs with
    | some (before, after) => some (x :: before, after)
    | none => if p x then some ([], xs) else none

def parseVersion (v : List Tok) : Except String Version :=
  if v = [.sep 42] then .ok .all
  else
    let s := v.map literal
    let (neg, digits) := if s.head? = some 45 then (true, s.tail) else (false, s)
    if digits = [] then if neg then .error "bad version" else .ok .highest
    else if digits.length > 5 ∨ ¬ digits.all (fun d => 48 ≤ d && d ≤ 57) then .error "bad version"
    else
      let n := digits.foldl (fun n d => n * 10 + (d.toNat - 48)) 0
      if n = 0 then .ok .highest
      else if n > MAX_VERSION then .error "version above 32767"
      else if neg then .ok (.relative n)
      else .ok (.exact n)

/-- The loop over a name's tokens.  A dot is not the last one if another follows. -/
def nameBytes (level : Level) : List Tok → Except String (List UInt8)
  | [] => .ok []
  | t :: ts =>
    if t = .dot ∧ .dot ∈ ts ∧ level = .ods2 then .error "more than one dot"
    else if t = .semi then .error "more than one semicolon"
    else do
      let name ← nameBytes level ts
      .ok (literal t :: name)

/-- A digit, `-` or `*`, as in a version. -/
def Tok.numeric (t : Tok) : Bool :=
  match t with
  | .lit c => (48 ≤ c && c ≤ 57) || c = 45
  | .sep c => c = 42

/-- The name and, if there is one, the version in "NAME.TYPE;VERSION". -/
def bodyVersion (toks : List Tok) : List Tok × Option (List Tok) :=
  match cutLast (· = .semi) toks with
  | some (body, v) => (body, some v)
  | none =>
    if 2 ≤ (toks.filter (· = .dot)).length then
      -- NAME.TYPE.VERSION, when what follows the last dot is a number
      match cutLast (· = .dot) toks with
      | some (body, tail) =>
        if tail.all Tok.numeric ∧ tail ≠ [] then (body, some tail) else (toks, none)
      | none => (toks, none)
    else (toks, none)

def parseFile (level : Level) (toks : List Tok) : Except String FileName := do
  let (body, v) := bodyVersion toks
  let version ← match v with
    | none => .ok .highest
    | some v => parseVersion v
  let name ← nameBytes level body
  .ok ⟨if .dot ∈ body then name else name ++ [dot], version⟩

/-- A component that has ended, if it is one. -/
def ended (comp : List UInt8) : List (List UInt8) := if comp = [] then [] else [comp]

/-- The loop over what is between the brackets; `comp` is the component so far.  Each
    turn takes a token at least. -/
def components : ℕ → List UInt8 → List Tok → Except String (List (List UInt8))
  | 0, comp, _ => .ok (ended comp)
  | _ + 1, comp, [] => .ok (ended comp)
  | fuel + 1, comp, t :: inner =>
    if t = .dot then
      let dots := ((t :: inner).takeWhile (· = .dot)).length
      if dots = 1 then do
        let dirs ← components fuel [] inner
        .ok (ended comp ++ dirs)
      else if dots = 3 then do
        let dirs ← components fuel [] (inner.drop 2)
        .ok (ended comp ++ ELLIPSIS :: dirs)
      else .error "bad directory delimiter"
    else if t ∈ [.bra, .ket, .less, .greater, .semi, .colon] then
      .error "bad character in directory"
    else components fuel (comp ++ [literal t]) inner

def mfdName : List UInt8 := [48, 48, 48, 48, 48, 48]

/-- The components without the MFD's name in front. -/
def belowMfd (dirs : List (List UInt8)) : List (List UInt8) :=
  if dirs.head? = some mfdName then dirs.tail else dirs

/-- The directory in front, and the tokens after it. -/
def parseDirs (toks : List Tok) : Except String (List (List UInt8) × List Tok) :=
  match toks with
  | [] => .ok ([], toks)
  | t :: rest =>
    if t = .bra ∨ t = .less then
      let close : Tok := if t = .bra then .ket else .greater
      if close ∈ rest then do
        let inner := rest.takeWhile (· ≠ close)
        let dirs ← components inner.length [] inner
        .ok (belowMfd dirs, rest.drop (inner.length + 1))
      else .error "unterminated directory"
    else .ok ([], toks)

/-- The tokens after the first colon, if there is one. -/
def afterDevice (toks : List Tok) : List Tok :=
  if .colon ∈ toks then (toks.dropWhile (· ≠ .colon)).tail else toks

/-- Parses "[DIR.SUB]NAME.TYPE;VERSION" (any part optional) for a volume of the given
    level. -/
def parse (level : Level) (s : List Char) : Except String Spec := do
  let toks ← tokenize level s
  let (dirs, toks) ← parseDirs (afterDevice toks)
  if toks.any (· ∈ [.bra, .ket, .less, .greater, .colon]) then .error "unexpected delimiter"
  else if toks = [] then .ok ⟨dirs, none⟩
  else do
    let file ← parseFile level toks
    .ok ⟨dirs, some file⟩

/-! ## Printing -/

def hexDigit (n : ℕ) : Char := Char.ofNat (if n < 10 then 48 + n else 55 + n)

/-- The characters of a name that are printed with a `^`. -/
def escaped : List Char := [',', ';', '[', ']', '%', '^', '&', '<', '>', ':']

/-- A character of a stored name as `display` writes it; `typeDot` says whether it is
    the last dot. -/
def displayChar (level : Level) (typeDot : Bool) (c : ℕ) : List Char :=
  if level = .ods2 then [Char.ofNat (c % 256)]
  -- a surrogate is no character
  else if 0xd800 ≤ c ∧ c < 0xe000 then ['?']
  else
    let ch := Char.ofNat c
    if ch = '.' ∧ ¬ typeDot then ['^', '.']
    else if ch = ' ' then ['^', '_']
    else if ch ∈ escaped then ['^', ch]
    else if 0xff < c then
      ['^', 'U', hexDigit (c / 4096), hexDigit (c / 256 % 16), hexDigit (c / 16 % 16),
        hexDigit (c % 16)]
    else if c < 0x20 ∨ 0x7f ≤ c ∧ c < 0xa0 then ['^', hexDigit (c / 16), hexDigit (c % 16)]
    else [ch]

/-- The loop of `display`.  A dot is the last one if no other follows. -/
def displayChars (level : Level) : List ℕ → List Char
  | [] => []
  | c :: cs => displayChar level (c = 46 ∧ 46 ∉ cs) c ++ displayChars level cs

/-- A stored name for display: ODS-2 as is, ODS-5 with `^` escapes where VMS would
    print them. -/
def display (level : Level) (name : List UInt8) (t : NameType) : List Char :=
  displayChars level (chars name t)

def versionText : Version → List Char
  | .highest => []
  | .exact v => ';' :: Nat.toDigits 10 v
  | .relative n => ';' :: '-' :: Nat.toDigits 10 n
  | .all => [';', '*']

/-! ## Wildcards -/

/-- Where the wildcard match is: its places in the pattern and the name, the last `*`
    and the place in the name it was last tried from. -/
structure GlobState where
  pi : ℕ
  si : ℕ
  star : Option ℕ
  mark : ℕ
  deriving DecidableEq, Repr

/-- The pattern's character `c` stands for the name's character `d`. -/
def globChar (c d : ℕ) : Bool := c = ONE.toNat || (c ≠ ANY.toNat && upcase c = upcase d)

/-- One turn of the loop of `glob`: its answer, or where it is next. -/
def globStep (p s : List ℕ) (g : GlobState) : Bool ⊕ GlobState :=
  if g.si < s.length then
    if g.pi < p.length ∧ globChar (p.getD g.pi 0) (s.getD g.si 0) then
      .inr { g with pi := g.pi + 1, si := g.si + 1 }
    else if g.pi < p.length ∧ p.getD g.pi 0 = ANY.toNat then
      .inr { g with star := some g.pi, mark := g.si, pi := g.pi + 1 }
    else match g.star with
      | some st => .inr { g with pi := st + 1, mark := g.mark + 1, si := g.mark + 1 }
      | none => .inl false
  else .inl ((p.drop g.pi).all (· = ANY.toNat))

/-- The loop of `glob`, for at most `fuel` turns. -/
def globLoop (p s : List ℕ) : ℕ → GlobState → Option Bool
  | 0, _ => none
  | fuel + 1, g => match globStep p s g with
    | .inl b => some b
    | .inr g' => globLoop p s fuel g'

/-- Iterative wildcard match: remember the last `*` and retry from there. -/
def glob (p s : List ℕ) : Option Bool :=
  globLoop p s ((s.length + 1) * (s.length + p.length + 1)) ⟨0, 0, none, 0⟩

/-- The place of the last dot of a name, or its end. -/
def typeAt (s : List ℕ) : ℕ :=
  if 46 ∈ s then s.length - 1 - s.reverse.idxOf 46 else s.length

/-- Whether a name matches a pattern with `ANY` and `ONE` wildcards; name and type are
    matched separately, case-blind. -/
def matchesPattern (pattern name : List ℕ) : Option Bool := do
  if ← glob (pattern.take (typeAt pattern)) (name.take (typeAt name)) then
    glob (pattern.drop (typeAt pattern)) (name.drop (typeAt name))
  else some false

end Name

/-! ## The Unix path form -/

namespace Path

/-- The characters `escape` puts a `^` in front of. -/
def delimiters : List Char := ['.', ',', ';', '[', ']', '<', '>', ':', '^', '&']

/-- Escapes VMS delimiters in one path component.  With `typeDot`, the last dot stays a
    name/type delimiter. -/
def escape (typeDot : Bool) : List Char → List Char
  | [] => []
  | c :: s =>
    (if c = '.' ∧ typeDot ∧ '.' ∉ s then ['.']
      else if c ∈ delimiters then ['^', c]
      else if c = ' ' then ['^', '_']
      else [c]) ++ escape typeDot s

/-- What is between the slashes of a path. -/
def parts (p : List Char) : List (List Char) := (p.splitOn '/').filter (· ≠ [])

/-- The directories of a path, and its file. -/
def dirsFile (p : List Char) : List (List Char) × Option (List Char) :=
  if p.getLast? = some '/' then (parts p, none)
  else match (parts p).getLast? with
    | some file => ((parts p).dropLast, some file)
    | none => (parts p, none)

def dots : List Char := ['.', '.', '.']

def versionChar (c : Char) : Bool := ('0' ≤ c && c ≤ '9') || c = '-' || c = '*'

/-- The name in a path's last part, and the version with its semicolon. -/
def nameVersion (f : List Char) : List Char × List Char :=
  match Name.cutLast (· = ';') f with
  | some (name, v) => if v.all versionChar then (name, ';' :: v) else (f, [])
  | none => (f, [])

/-- Converts a Unix-style path to a VMS file specification; anything not starting with
    `/` is taken to be one already. -/
def toVms (p : List Char) : List Char :=
  if p.head? ≠ some '/' then p
  else
    let (dirs, file) := dirsFile p
    ['['] ++
    (if dirs = [] then ['0', '0', '0', '0', '0', '0']
      else ['.'].intercalate (dirs.map fun d => if d = dots then d else escape false d)) ++
    [']'] ++
    match file with
    | none => []
    | some f => escape true (nameVersion f).1 ++ (nameVersion f).2

end Path

end Ods
