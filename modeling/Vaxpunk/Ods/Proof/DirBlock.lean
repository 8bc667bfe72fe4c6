/-
  Directory blocks round trip: what is read from a block is written back as it was,
  and the records a block can hold are read as they were written.
-/
import Vaxpunk.Lib.Exec
import Vaxpunk.Ods.Layout.Dir

namespace Ods

open List

namespace DirRecord

/-- A version and file ID that fit their 8 bytes. -/
def Fits (e : ℕ × Fid) : Prop := e.1 < 2 ^ 16 ∧ e.2.num < 2 ^ 24 ∧ e.2.seq < 2 ^ 16 ∧ e.2.rvn < 2 ^ 8

/-- A record as a directory block holds it. -/
structure Stored (r : DirRecord) : Prop where
  name : r.name.length < 2 ^ 8
  verlimit : r.verlimit < 2 ^ 16
  flags : r.flags < 2 ^ 8
  type : r.flags &&& 7 = 0
  versions : r.entries ≠ []
  entries : ∀ e ∈ r.entries, Fits e
  /-- Only an odd-length name is padded. -/
  pad : r.name.length % 2 = 0 → r.pad = 0

end DirRecord

namespace DirBlock

open DirRecord

/-- No record follows: there is the -1 word, or no place for a word. -/
def Ended (bs : List UInt8) : Prop := bs.length < 2 ∨ wordAt bs 0 = 0xffff

variable {r : DirRecord} {rs : List DirRecord} {b : DirBlock} {blk : Block} {bs tail : List UInt8} {fuel : ℕ}

/-! ## Words and value lists -/

theorem wordAt_word {n : ℕ} (h : n < 2 ^ 16) : wordAt (word n ++ bs) 0 = n := by
  simp [wordAt, word, Nat.shiftRight_eq_div_pow, Nat.shiftLeft_eq]
  omega

theorem word_lt (a c : UInt8) : a.toNat + c.toNat <<< 8 < 2 ^ 16 := by
  have ha := a.toNat_lt
  have hc := c.toNat_lt
  rw [Nat.shiftLeft_eq]
  omega

theorem word_toNat (a c : UInt8) : word (a.toNat + c.toNat <<< 8) = [a, c] := by
  have ha := a.toNat_lt
  have hc := c.toNat_lt
  simp only [word, cons.injEq, and_true, ← UInt8.toNat_inj, UInt8.toNat_ofNat', Nat.shiftRight_eq_div_pow,
    Nat.shiftLeft_eq]
  omega

theorem parseEntries_bytes : ∀ {es : List (ℕ × Fid)}, (∀ e ∈ es, Fits e) →
    parseEntries (es.flatMap entryBytes) = es
  | [], _ => rfl
  | (v, ⟨num, seq, rvn⟩) :: es, h => by
    obtain ⟨hv, hnum, hseq, hrvn⟩ := h _ mem_cons_self
    simp only at hv hnum hseq hrvn
    have ih := parseEntries_bytes fun e he => h e (mem_cons_of_mem _ he)
    simp only [flatMap_cons, entryBytes, word, cons_append, nil_append, parseEntries, ih]
    simp [Nat.shiftRight_eq_div_pow, Nat.shiftLeft_eq]
    omega

theorem length_entries (es : List (ℕ × Fid)) : (es.flatMap entryBytes).length = 8 * es.length := by
  induction es with
  | nil => rfl
  | cons e es ih =>
    rw [flatMap_cons, length_append, ih, length_cons, Nat.mul_succ, Nat.add_comm]
    rfl

theorem bytes_parseEntries (h : bs.length % 8 = 0) :
    (parseEntries bs).flatMap entryBytes = bs ∧ ∀ e ∈ parseEntries bs, Fits e := by
  induction bs using parseEntries.induct with
  | case1 v0 v1 n0 n1 s0 s1 r n2 bs ih =>
    obtain ⟨hbytes, hfits⟩ := ih (by simp only [length_cons] at h; omega)
    have hlow := word_lt n0 n1
    have hhigh := n2.toNat_lt
    have hnum : word (n0.toNat + n1.toNat <<< 8 + n2.toNat <<< 16) = [n0, n1] ∧
        (n0.toNat + n1.toNat <<< 8 + n2.toNat <<< 16) >>> 16 = n2.toNat := by
      rw [← word_toNat n0 n1]
      simp only [word, cons.injEq, and_true, ← UInt8.toNat_inj, UInt8.toNat_ofNat', Nat.shiftRight_eq_div_pow,
        Nat.shiftLeft_eq _ 16]
      omega
    rw [parseEntries, forall_mem_cons]
    refine ⟨?_, ⟨word_lt v0 v1, ?_, word_lt s0 s1, r.toNat_lt⟩, hfits⟩
    · simp [entryBytes, word_toNat, hnum, hbytes]
    · simp only [Nat.shiftLeft_eq _ 16]
      omega
  | case2 bs hbs =>
    rcases bs with _ | ⟨_, _ | ⟨_, _ | ⟨_, _ | ⟨_, _ | ⟨_, _ | ⟨_, _ | ⟨_, _ | ⟨_, _⟩⟩⟩⟩⟩⟩⟩⟩ <;>
      first | exact (hbs _ _ _ _ _ _ _ _ _ rfl).elim | simp_all [parseEntries]

/-! ## Records -/

/-- The byte that pads an odd-length name. -/
def padding (r : DirRecord) : List UInt8 := if r.name.length % 2 = 1 then [r.pad] else []

theorem length_name (r : DirRecord) : (r.name ++ padding r).length = even r.name.length := by
  rw [length_append, padding, even]
  split <;> simp <;> omega

theorem write_eq (r : DirRecord) : r.write = word (r.size - 2) ++ (word r.verlimit ++
    UInt8.ofNat r.flags :: UInt8.ofNat r.name.length ::
      ((r.name ++ padding r) ++ r.entries.flatMap entryBytes)) := by
  simp [write, padding]

theorem length_write (r : DirRecord) : r.write.length = r.size := by
  have hname := length_name r
  have hentries := length_entries r.entries
  rw [write_eq, size]
  simp only [word, length_append, length_cons, length_nil] at *
  omega

theorem parseRecord_iff {a c v w f l : UInt8} {body : List UInt8} :
    parseRecord (a :: c :: v :: w :: f :: l :: body) = .ok r ↔
      even l.toNat < body.length ∧ f.toNat &&& 7 = 0 ∧ (body.length - even l.toNat) % 8 = 0 ∧
      r = ⟨body.take l.toNat, v.toNat + w.toNat <<< 8, f.toNat, parseEntries (body.drop (even l.toNat)),
        if l.toNat % 2 = 1 then body.getD l.toNat 0 else 0⟩ := by
  have hdrop : (a :: c :: v :: w :: f :: l :: body).drop (6 + even l.toNat) = body.drop (even l.toNat) := by
    rw [← drop_drop]; rfl
  have hpad : (a :: c :: v :: w :: f :: l :: body).getD (6 + l.toNat) 0 = body.getD l.toNat 0 := by
    rw [Nat.add_comm]; rfl
  have hlimit : wordAt (a :: c :: v :: w :: f :: l :: body) 2 = v.toNat + w.toNat <<< 8 := rfl
  simp only [parseRecord, hpad, hdrop, hlimit, getD_cons_succ, getD_cons_zero, length_cons,
    drop_succ_cons, drop_zero]
  split
  · exact iff_of_false nofun fun h => by omega
  split
  case isTrue htype => exact iff_of_false nofun fun h => htype h.2.1
  case isFalse htype =>
    split
    · exact iff_of_false nofun fun h => by omega
    · rw [Except.ok.injEq, eq_comm]
      exact ⟨fun h => ⟨by omega, not_ne_iff.1 htype, by omega, h⟩, fun h => h.2.2.2⟩

theorem parseRecord_write (hr : r.Stored) : parseRecord r.write = .ok r := by
  have hlen : (UInt8.ofNat r.name.length).toNat = r.name.length := UInt8.toNat_ofNat_of_lt' hr.name
  have hflags : (UInt8.ofNat r.flags).toNat = r.flags := UInt8.toNat_ofNat_of_lt' hr.flags
  have hname := length_name r
  have hentries := length_entries r.entries
  have hpos := length_pos_iff.2 hr.versions
  rw [write_eq]
  refine parseRecord_iff.2 ?_
  rw [hlen, hflags, length_append, hname, hentries, drop_left' hname, parseEntries_bytes hr.entries,
    append_assoc, take_left]
  refine ⟨by omega, hr.type, by omega, ?_⟩
  have hlimit : wordAt (word r.verlimit ++ []) 0 = r.verlimit := wordAt_word hr.verlimit
  have hpad : (if r.name.length % 2 = 1 then
      (r.name ++ (padding r ++ r.entries.flatMap entryBytes)).getD r.name.length 0 else 0) = r.pad := by
    split
    case isTrue hodd => simp [padding, hodd]
    case isFalse heven => exact (hr.pad (by omega)).symm
  rw [hpad]
  exact congrArg (fun v => (⟨r.name, v, r.flags, r.entries, r.pad⟩ : DirRecord)) hlimit.symm

theorem take_even {n : ℕ} (h : even n ≤ bs.length) :
    bs.take n ++ (if n % 2 = 1 then [bs.getD n 0] else []) = bs.take (even n) := by
  rw [even] at h ⊢
  split
  case isTrue hodd => rw [hodd, take_add_one, getElem?_eq_getElem (by omega), getD_eq_getElem _ _ (by omega)]; rfl
  case isFalse heven => rw [show n % 2 = 0 by omega, append_nil]; rfl

theorem write_parseRecord (hsize : 6 ≤ bs.length) (hlen : wordAt bs 0 + 2 = bs.length)
    (h : parseRecord bs = .ok r) : r.write = bs ∧ r.Stored := by
  obtain _ | ⟨a, _ | ⟨c, _ | ⟨v, _ | ⟨w, _ | ⟨f, _ | ⟨l, body⟩⟩⟩⟩⟩⟩ := bs <;> try simp at hsize
  obtain ⟨hroom, htype, hvalues, hr⟩ := parseRecord_iff.1 h
  rw [← length_drop] at hvalues
  obtain ⟨hbytes, hfits⟩ := bytes_parseEntries hvalues
  have hcount := length_entries (parseEntries (body.drop (even l.toNat)))
  rw [hbytes, length_drop] at hcount
  have hname : r.name.length = l.toNat := by
    rw [hr, length_take, Nat.min_eq_left (by rw [even] at hroom; omega)]
  have hentries : r.entries = parseEntries (body.drop (even l.toNat)) := by rw [hr]
  have hpadding : padding r = if l.toNat % 2 = 1 then [body.getD l.toNat 0] else [] := by
    rw [padding, hname, hr]
    split <;> rfl
  have hword : r.size - 2 = a.toNat + c.toNat <<< 8 := by
    change a.toNat + c.toNat <<< 8 + 2 = body.length + 6 at hlen
    rw [size, hname, hentries]
    omega
  constructor
  · rw [write_eq, hword, hpadding, hname, hentries, hbytes, hr, take_even hroom.le, take_append_drop]
    simp [word_toNat]
  · exact {
      name := hname ▸ l.toNat_lt
      verlimit := hr ▸ word_lt v w
      flags := hr ▸ f.toNat_lt
      type := hr ▸ htype
      versions := fun h => by
        rw [← hentries, h, length_nil] at hcount
        omega
      entries := hentries ▸ hfits
      pad := fun h => by
        rw [hr]
        exact if_neg (by omega) }

/-! ## Blocks -/

theorem parseBytes_write (htail : Ended tail) : ∀ {rs fuel}, (∀ r ∈ rs, r.Stored) →
    (rs.flatMap write ++ tail).length ≤ fuel → (rs.flatMap write).length ≤ BLOCK →
    parseBytes fuel (rs.flatMap write ++ tail) = .ok ⟨rs, tail⟩
  | [], 0, _, _, _ => rfl
  | [], fuel + 1, _, _, _ => by
    rw [parseBytes]
    exact if_pos htail
  | r :: rs, fuel, hrs, hfuel, hblock => by
    obtain ⟨hr, hrs⟩ := forall_mem_cons.1 hrs
    have hlen := length_write r
    have hpos := length_pos_iff.2 hr.versions
    have hsize : 14 ≤ r.size ∧ r.size % 2 = 0 := by
      rw [size, even]
      omega
    rw [flatMap_cons, length_append, hlen] at hblock
    rw [flatMap_cons, append_assoc] at hfuel ⊢
    obtain _ | fuel := fuel
    · simp only [length_append] at hfuel
      omega
    have hword : wordAt (r.write ++ (rs.flatMap write ++ tail)) 0 = r.size - 2 := by
      rw [write_eq, append_assoc, wordAt_word]
      rw [BLOCK] at hblock
      omega
    have hrest : parseBytes fuel (rs.flatMap write ++ tail) = .ok ⟨rs, tail⟩ :=
      parseBytes_write htail hrs (by rw [length_append] at hfuel; omega) (by omega)
    have htotal : r.size ≤ (r.write ++ (rs.flatMap write ++ tail)).length := by
      rw [length_append]
      omega
    rw [BLOCK] at hblock
    rw [parseBytes, if_neg (by rw [hword]; omega)]
    simp only [hword]
    rw [if_neg (by omega), show 2 + (r.size - 2) = r.write.length by omega, take_left, drop_left,
      parseRecord_write hr, hrest]
    rfl

theorem write_parseBytes : ∀ {fuel bs b}, parseBytes fuel bs = .ok b →
    b.records.flatMap write ++ b.tail = bs ∧ (∀ r ∈ b.records, r.Stored) ∧ (bs.length ≤ fuel → Ended b.tail)
  | 0, bs, b, h => by
    obtain rfl := Except.ok.inj h
    exact ⟨rfl, nofun, fun hbs => .inl (Nat.lt_of_le_of_lt hbs Nat.two_pos)⟩
  | fuel + 1, bs, b, h => by
    rw [parseBytes] at h
    split at h
    case isTrue hend =>
      obtain rfl := Except.ok.inj h
      exact ⟨rfl, nofun, fun _ => hend⟩
    case isFalse hend =>
      dsimp only at h
      split at h
      · cases h
      case isFalse hsize =>
        obtain ⟨r, hr, h⟩ := Exec.bind_eq_ok.1 h
        obtain ⟨b', hb', h⟩ := Exec.bind_eq_ok.1 h
        obtain rfl := Except.ok.inj h
        have hrec : (bs.take (2 + wordAt bs 0)).length = 2 + wordAt bs 0 := by
          rw [length_take]
          omega
        have hword : wordAt (bs.take (2 + wordAt bs 0)) 0 = wordAt bs 0 := by
          obtain _ | ⟨_, _ | ⟨_, _⟩⟩ := bs <;> simp [wordAt, Nat.add_comm 2]
        obtain ⟨hwrite, hstored⟩ := write_parseRecord (by omega) (by omega) hr
        obtain ⟨hrest, hall, hended⟩ := write_parseBytes hb'
        refine ⟨?_, forall_mem_cons.2 ⟨hstored, hall⟩, fun hbs => hended (by rw [length_drop]; omega)⟩
        rw [flatMap_cons, append_assoc, hrest, hwrite, take_append_drop]

theorem length_records (rs : List DirRecord) : (rs.flatMap write).length = (rs.map size).sum := by
  simp [length_flatMap, length_write]

theorem bytes_toBlock (h : b.toBlock = some blk) : b.used ≤ BLOCK ∧
    ∃ tail, Field.bytes blk 0 BLOCK = b.records.flatMap write ++ tail ∧
      (b.tail.length = BLOCK - b.used → tail = b.tail) ∧ (b.tail.length ≠ BLOCK - b.used → Ended tail) := by
  have hused : (b.records.flatMap write).length = b.used := length_records b.records
  have hbytes : ∀ t : List UInt8, b.used + t.length ≤ BLOCK → Field.bytes
      (BitVec.ofNat 4096 (Field.ofBytes (b.records.flatMap write ++ t))) 0 BLOCK =
      b.records.flatMap write ++ (t ++ replicate (BLOCK - (b.used + t.length)) 0) := by
    intro t ht
    have hlen : (b.records.flatMap write ++ t).length = b.used + t.length := by rw [length_append, hused]
    have hcodec := @Field.bytes_ofBytes BLOCK (b.records.flatMap write ++ t) (hlen ▸ ht)
    rw [hlen, append_assoc] at hcodec
    exact hcodec
  rw [toBlock] at h
  split_ifs at h with hroom hsame hmax
  · obtain rfl := Option.some.inj h
    refine ⟨by omega, b.tail, ?_, fun _ => rfl, fun h => absurd hsame h⟩
    rw [hbytes b.tail (by omega), show BLOCK - (b.used + b.tail.length) = 0 by omega]
    simp
  · obtain rfl := Option.some.inj h
    rw [MAX_RECORD, BLOCK] at hmax
    exact ⟨by omega, _, hbytes [0xff, 0xff] (by simp only [length_cons, length_nil, BLOCK]; omega),
      fun h => absurd h hsame, fun _ => .inr (by simp [wordAt])⟩

/-- Not every list of records that fits a block is read back: one without versions
    is refused. -/
theorem parse_toBlock_fails : ¬∀ (rs : List DirRecord) (blk : Block), (DirBlock.mk rs []).toBlock = some blk →
    ∃ tail, parse blk = .ok ⟨rs, tail⟩ := by
  intro h
  obtain ⟨tail, hparse⟩ := h [⟨[65, 46], 0, 0, [], 0⟩] _ rfl
  obtain ⟨-, hstored, -⟩ := write_parseBytes hparse
  exact (hstored _ mem_cons_self).versions rfl

/-- **Directory blocks round trip**: the records that fit a block are read as they were
    written exactly when a block can hold each, and no record follows in a tail that is
    kept.  A block that is read is written back as it was. -/
theorem parse_toBlock :
    (∀ (b : DirBlock) (blk : Block), b.toBlock = some blk →
      ((∃ tail, parse blk = .ok ⟨b.records, tail⟩) ↔
        (∀ r ∈ b.records, r.Stored) ∧ (b.tail.length = BLOCK - b.used → Ended b.tail))) ∧
    ∀ (blk : Block) (b : DirBlock), parse blk = .ok b → b.toBlock = some blk := by
  constructor
  · intro b blk h
    obtain ⟨hused, tail, hbytes, hsame, hended⟩ := bytes_toBlock h
    have hlen := length_records b.records
    constructor
    · rintro ⟨tail', hparse⟩
      obtain ⟨hwrite, hstored, hend⟩ := write_parseBytes hparse
      rw [hbytes] at hwrite
      refine ⟨hstored, fun h' => ?_⟩
      rw [← hsame h', ← append_cancel_left hwrite]
      exact hend (Field.length_bytes _ _ _).le
    · rintro ⟨hstored, hend⟩
      refine ⟨tail, ?_⟩
      rw [parse, hbytes]
      refine parseBytes_write ?_ hstored ?_ (by rwa [hlen])
      · by_cases h' : b.tail.length = BLOCK - b.used
        · exact hsame h' ▸ hend h'
        · exact hended h'
      · rw [← hbytes, Field.length_bytes]
  · intro blk b h
    obtain ⟨hwrite, -, -⟩ := write_parseBytes h
    have hlen := congrArg length hwrite
    rw [length_append, length_records, Field.length_bytes] at hlen
    rw [toBlock, used, if_neg (by omega), if_pos (by omega), hwrite]
    exact congrArg some (@Field.ofNat_ofBytes BLOCK blk)

/-- Two versions of A.B. -/
def twoVersions : DirBlock := ⟨[⟨[65, 46, 66], 0, 0, [(2, ⟨12, 1, 0⟩), (1, ⟨11, 1, 0⟩)], 0⟩], []⟩

theorem parse_toBlock_two : (∀ r ∈ twoVersions.records, r.Stored) ∧
    ∃ blk tail, twoVersions.toBlock = some blk ∧ parse blk = .ok ⟨twoVersions.records, tail⟩ := by
  have hstored : ∀ r ∈ twoVersions.records, r.Stored := by
    simp only [twoVersions, forall_mem_singleton]
    exact ⟨by decide, by decide, by decide, by decide, by decide, by unfold Fits; decide, by decide⟩
  obtain ⟨tail, h⟩ := (parse_toBlock.1 twoVersions _ rfl).2 ⟨hstored, fun _ => .inl (by decide)⟩
  exact ⟨hstored, _, tail, rfl, h⟩
end DirBlock

end Ods
