/-
  What is written of an object module is read back (`Obj.File`): each field, each
  record of fields, each subrecord and command, each record, and the file.
-/
import Vaxpunk.Obj.File

namespace Obj

open Codec List Record

variable {w : List Byte}
variable {body : List Byte} {α : Type} {rel : List Bool} {r : Record}

/-! ## Fields -/

theorem reads_u8 (v : BitVec 8) : Reads u8 (put v) v := reads_int _ rfl v
theorem reads_u16 (v : BitVec 16) : Reads u16 (put v) v := reads_int _ rfl v
theorem reads_u32 (v : BitVec 32) : Reads u32 (put v) v := reads_int _ rfl v
theorem reads_u64 (v : BitVec 64) : Reads u64 (put v) v := reads_int _ rfl v

theorem reads_array {n : ℕ} (b : Bytes n) : Reads (array n) b.val b := by
  obtain ⟨b, rfl⟩ := b
  intro bytes
  change (if h : _ then _ else _) = _
  rw [dif_neg (by simp)]
  simp

theorem reads_name {s : Name} (h : nameOk s = true) : Reads readName (putName s) s := by
  simp only [nameOk, Bool.and_eq_true, decide_eq_true_eq] at h
  have hlen : (BitVec.ofNat 8 s.length).toNat = s.length := by
    rw [BitVec.toNat_ofNat]; omega
  refine (reads_u8 _).bind (Reads.bind_pure (a := s) ?_ ?_)
  · rw [hlen]; exact reads_take _ s
  · rw [if_pos h.2]; exact Reads.pure s

theorem reads_data {b : List Byte} (h : b.length < 2 ^ 32) : Reads readData (putData b) b := by
  have hlen : (BitVec.ofNat 32 b.length).toNat = b.length := by
    rw [BitVec.toNat_ofNat, Nat.mod_eq_of_lt h]
  refine (reads_u32 _).bind ?_
  rw [hlen]
  exact reads_take _ b

/-! ## Records of fields -/

theorem Mhd.reads {h : Mhd} (hn : nameOk h.name = true) (hv : nameOk h.version = true) : Reads Mhd.read h.bytes h :=
  (reads_u8 _).bind <| (reads_u8 _).bind <| (reads_u32 _).bind <| (reads_u32 _).bind <|
    (reads_u32 _).bind <| (reads_name hn).bind <| (reads_name hv).bind <|
      (reads_array _).bind_pure (Reads.pure h)

theorem Psc.reads {p : Psc} (hn : nameOk p.name = true) : Reads Psc.read p.bytes p :=
  (reads_u8 _).bind <| (reads_u8 _).bind <| (reads_u16 _).bind <| (reads_u32 _).bind <|
    (reads_name hn).bind_pure (Reads.pure p)

theorem SymDef.reads {d : SymDef} (hn : nameOk d.name = true) : Reads SymDef.read d.bytes d :=
  (reads_u8 _).bind <| (reads_u8 _).bind <| (reads_u16 _).bind <| (reads_u64 _).bind <|
    (reads_u64 _).bind <| (reads_u32 _).bind <| (reads_u32 _).bind <|
      (reads_name hn).bind_pure (Reads.pure d)

theorem SymRef.reads {r : SymRef} (hn : nameOk r.name = true) : Reads SymRef.read r.bytes r :=
  (reads_u8 _).bind <| (reads_u8 _).bind <| (reads_u16 _).bind <|
    (reads_name hn).bind_pure (Reads.pure r)

theorem Eom.reads (e : Eom) : Reads Eom.read e.bytes e :=
  (reads_u32 _).bind <| (reads_u16 _).bind_pure (Reads.pure e)

theorem Transfer.reads (t : Transfer) : Reads Transfer.read t.bytes t :=
  (reads_u8 _).bind <| (reads_u8 _).bind <| (reads_u32 _).bind <|
    (reads_u64 _).bind_pure (Reads.pure t)

/-! ## Types and sizes -/

theorem length_framed (kind : BitVec 16) (body : List Byte) : (framed kind body).length = 4 + body.length := by
  simp only [framed, length_append, length_put]; omega

theorem framed_ne_nil (kind : BitVec 16) (body : List Byte) : framed kind body ≠ [] := fun h => by
  have := length_framed kind body
  rw [h, length_nil] at this
  omega

theorem reads_framed (what : String) (kind : BitVec 16) (h : 4 + body.length < 2 ^ 16) :
    Reads (readFramed what) (framed kind body) (kind, body) := by
  have hlen : (BitVec.ofNat 16 (4 + body.length)).toNat = 4 + body.length := by
    rw [BitVec.toNat_ofNat, Nat.mod_eq_of_lt h]
  refine (reads_u16 kind).bind ((reads_u16 _).bind ?_)
  rw [hlen, if_neg (by omega), Nat.add_sub_cancel_left]
  exact (reads_take _ body).bind_pure (Reads.pure _)

theorem reads_body {what : String} {kind : BitVec 16} {a : α}
    (f : BitVec 16 → List Byte → Except Error α) (h : 4 + body.length < 2 ^ 16) (hf : f kind body = .ok a) :
    Reads (do
      let (kind, body) ← readFramed what
      liftM (f kind body)) (framed kind body) a :=
   (reads_framed what kind h).bind_pure (Reads.lift hf)

/-! ## Commands -/

def Tir.codes : List ℕ :=
  [0, 1, 2, 3] ++ [50, 51, 52, 53, 54, 55, 56, 59, 61] ++ List.range' 80 18 ++ List.range' 100 10 ++
    [111, 113, 114] ++ List.range' 150 5

/-- A command kept as bytes has a code that has no command. -/
def Tir.WellFormed : Tir → Prop
  | .other code _ => code.toNat ∉ Tir.codes
  | _ => True

theorem Tir.readArgs_other {code : BitVec 16} (h : code.toNat ∉ Tir.codes) :
    Tir.readArgs code = Tir.other code <$> rest := by
  unfold Tir.readArgs
  split <;> first
    | rfl
    | next heq => exact absurd (heq ▸ by decide) h

theorem Tir.value_args {t : Tir} (hw : t.WellFormed) (hn : ∀ s ∈ t.names, nameOk s = true)
    (hlen : t.args.length < 2 ^ 32) : value (Tir.readArgs t.code) t.args = .ok t := by
  have hdata : ∀ {b : List Byte}, (putData b).length < 2 ^ 32 → b.length < 2 ^ 32 := fun {b} h => by
    simp only [putData, length_append, length_put] at h; omega
  cases t with
  | staGbl s | stoGbl s | stoCa s =>
    exact ((reads_name (hn s (by simp [Tir.names]))).map _).value_all
  | staQw v => exact ((reads_u64 v).map _).value_all
  | staPq p v => exact ((reads_u32 p).bind ((reads_u64 v).bind_pure (Reads.pure (Tir.staPq p v)))).value_all
  | stoImmr b | stoImm b => exact ((reads_data (hdata hlen)).map _).value_all
  | other c args =>
    rw [Tir.code, Tir.readArgs_other hw]
    rfl
  | staLw v => exact ((reads_u32 v).map _).value_all
  | stoA64Jump26 v | stoA64Branch19 v | stoA64Branch14 v | stoA64Adr v | stoA64Adrp v
  | stoA64AddLo12 v | stoA64Ldst8Lo12 v | stoA64Ldst16Lo12 v | stoA64Ldst32Lo12 v
  | stoA64Ldst64Lo12 v | stoA64Ldst128Lo12 v | stoA64MovwG0 v | stoA64MovwG0Nc v | stoA64MovwG1 v
  | stoA64MovwG1Nc v | stoA64MovwG2 v | stoA64MovwG2Nc v | stoA64MovwG3 v | ctlAugrb v =>
    exact ((reads_u32 v).map _).value_all
  | _ => rfl

theorem Tir.reads {t : Tir} (hw : t.WellFormed) (hn : ∀ s ∈ t.names, nameOk s = true)
    (hlen : t.bytes.length < 2 ^ 16) : Reads Tir.read t.bytes t := by
  rw [Tir.bytes, length_framed] at hlen
  exact reads_body (fun code args => value (Tir.readArgs code) args) hlen (Tir.value_args hw hn (by omega))

/-! ## Subrecords -/

namespace Gsd

/-- A definition is flagged so and a reference is not; a subrecord kept as bytes
    has another type and ends on a quadword boundary. -/
def WellFormed : Gsd → Prop
  | psc _ => True
  | sdef d => has d.flags sym.DEF = true
  | sref r => has r.flags sym.DEF = false
  | other gsdtyp data => gsdtyp ≠ 0 ∧ gsdtyp ≠ 1 ∧ 8 ∣ 4 + data.length

instance : DecidablePred WellFormed := fun g => by cases g <;> simp only [WellFormed] <;> infer_instance

theorem value_flags {v v' : BitVec 8} {flags : BitVec 16} {bytes : List Byte} :
    value u16 ((put v ++ (put v' ++ (put flags ++ bytes))).drop 2) = .ok flags := by
  have h : (put v ++ (put v' ++ (put flags ++ bytes))).drop 2 = put flags ++ bytes := by
    rw [← append_assoc]
    exact drop_left' (by simp)
  rw [h]
  exact (reads_u16 flags).value bytes

theorem parse_body {g : Gsd} (hw : g.WellFormed) (hn : ∀ s ∈ g.names, nameOk s = true) :
    parse g.gsdtyp (g.body ++ g.padding) = .ok g := by
  cases g with
  | psc p =>
    have h := (Psc.reads (hn p.name (by simp [names]))).value (psc p).padding
    simp only [parse, gsdtyp, body, h]
    rfl
  | sdef d =>
    have h := (SymDef.reads (hn d.name (by simp [names]))).value (sdef d).padding
    have hf : value u16 ((d.bytes ++ (sdef d).padding).drop 2) = .ok d.flags := by
      simp only [SymDef.bytes, append_assoc]
      exact value_flags
    simp only [parse, gsdtyp, body, h, hf]
    simp only [WellFormed] at hw
    simp [bind, Except.bind, hw, pure, Except.pure]
  | sref r =>
    have h := (SymRef.reads (hn r.name (by simp [names]))).value (sref r).padding
    have hf : value u16 ((r.bytes ++ (sref r).padding).drop 2) = .ok r.flags := by
      simp only [SymRef.bytes, append_assoc]
      exact value_flags
    simp only [parse, gsdtyp, body, h, hf]
    simp only [WellFormed] at hw
    simp [bind, Except.bind, hw, pure, Except.pure]
  | other t data =>
    obtain ⟨h0, h1, hpad⟩ := hw
    have hp : (other t data).padding = [] := by
      simp only [padding, body]
      rw [show (4 + data.length + 7) / 8 * 8 - (4 + data.length) = 0 by omega]
      rfl
    rw [hp, append_nil]
    simp only [parse, gsdtyp, body]
    split
    · next h => exact absurd (BitVec.eq_of_toNat_eq h) h0
    · next h => exact absurd (BitVec.eq_of_toNat_eq h) h1
    · rfl

theorem reads {g : Gsd} (hw : g.WellFormed) (hn : ∀ s ∈ g.names, nameOk s = true)
    (hlen : g.bytes.length < 2 ^ 16) : Reads read g.bytes g := by
  rw [bytes, length_framed] at hlen
  exact reads_body parse hlen (parse_body hw hn)

end Gsd

/-! ## Records -/

theorem readAll_eq {r : Reader Error α} {bytes : α → List Byte} : ∀ {as : List α},
    (∀ a ∈ as, bytes a ≠ [] ∧ Reads r (bytes a) a) → readAll r (as.flatMap bytes) = .ok as := by
  intro as h
  have hsteps : ∀ {as : List α}, (∀ a ∈ as, bytes a ≠ [] ∧ Reads r (bytes a) a) →
      Steps (fun _ : Unit => (·, ()) <$> r) () (as.map bytes) as := by
    intro as
    induction as with
    | nil => exact fun _ => .nil _
    | cons a as ih =>
      intro h
      obtain ⟨⟨hne, hr⟩, htail⟩ := forall_mem_cons.1 h
      exact .cons hne (hr.map _) (ih htail)
  rw [readAll, flatMap_def]
  exact (hsteps h).all

namespace Record

/-- What the format asks of a record: names that can be written, and sizes and
    flags and types that say what the record holds. -/
structure WellFormed (r : Record) : Prop where
  names : ∀ s ∈ r.names, nameOk s = true
  size : r.bytes.length ≤ MAX_RECORD
  subrecords : ∀ subs, r = gsd subs → ∀ g ∈ subs, g.WellFormed
  commands : ∀ cmds, r = tir cmds ∨ r = dbg cmds ∨ r = tbt cmds → ∀ t ∈ cmds, t.WellFormed

/-- What reading asks besides: the main header is for ARM64, and no other header
    text has its subtype. -/
def Native : Record → Prop
  | mhd h => h.arch1 = ARCH_ARM64
  | text subtype _ => subtype ≠ MHD
  | _ => True

instance : DecidablePred Native := fun r => by cases r <;> simp only [Native] <;> infer_instance

variable {r : Record}

theorem length_body_lt (h : r.bytes.length ≤ MAX_RECORD) : 4 + r.body.length < 2 ^ 16 := by
  rw [bytes, length_framed] at h
  simp only [MAX_RECORD] at h
  omega

theorem length_lt_of_mem {f : α → List Byte} {as : List α} {a : α} (ha : a ∈ as)
    (h : (as.flatMap f).length < 2 ^ 16) : (f a).length < 2 ^ 16 := by
  rw [flatMap_def] at h
  exact lt_of_le_of_lt (sublist_flatten_of_mem (mem_map_of_mem ha)).length_le h

theorem parts_lt (h : r.bytes.length ≤ MAX_RECORD) : ∀ n ∈ r.parts, n < 2 ^ 16 := by
  have hlen := length_body_lt h
  intro n hn
  cases r with
  | mhd m => cases hn
  | text subtype contents => cases hn
  | eom e t => cases hn
  | gsd subs =>
    obtain ⟨g, hg, rfl⟩ := mem_map.1 hn
    simp only [body, length_append] at hlen
    exact length_lt_of_mem hg (by omega)
  | tir cmds | dbg cmds | tbt cmds =>
    obtain ⟨t, ht, rfl⟩ := mem_map.1 hn
    simp only [body] at hlen
    exact length_lt_of_mem ht (by omega)

theorem asserts_of_wellFormed (h : r.WellFormed) : r.asserts = true := by
  simp only [asserts, Bool.and_eq_true, all_eq_true, decide_eq_true_eq]
  exact ⟨⟨h.names, parts_lt h.size⟩, h.size⟩

theorem readAll_commands {cmds : List Tir} (hw : ∀ t ∈ cmds, t.WellFormed)
    (hn : ∀ s ∈ cmds.flatMap Tir.names, nameOk s = true) (hlen : 4 + (cmds.flatMap Tir.bytes).length < 2 ^ 16) :
    readAll Tir.read (cmds.flatMap Tir.bytes) = .ok cmds := by
  refine readAll_eq fun t ht => ⟨framed_ne_nil _ _, Tir.reads (hw t ht) (fun s hs => ?_) ?_⟩
  · exact hn s (mem_flatMap.2 ⟨t, ht, hs⟩)
  · exact length_lt_of_mem ht (by omega)

theorem readAll_subrecords {subs : List Gsd} (hw : ∀ g ∈ subs, g.WellFormed)
    (hn : ∀ s ∈ subs.flatMap Gsd.names, nameOk s = true) (hlen : (subs.flatMap Gsd.bytes).length < 2 ^ 16) :
    readAll Gsd.read (subs.flatMap Gsd.bytes) = .ok subs := by
  refine readAll_eq fun g hg => ⟨framed_ne_nil _ _, Gsd.reads (hw g hg) (fun s hs => ?_) ?_⟩
  · exact hn s (mem_flatMap.2 ⟨g, hg, hs⟩)
  · exact length_lt_of_mem hg hlen

theorem parse_body (h : r.WellFormed) (hnat : r.Native) : parse r.rectyp r.body = .ok r := by
  have hlen := length_body_lt h.size
  cases r with
  | mhd m =>
    refine ((reads_u16 MHD).bind ?_).value_all
    rw [if_pos rfl]
    refine (Mhd.reads (h.names m.name (by simp [names])) (h.names m.version (by simp [names]))).bind_pure ?_
    rw [if_neg (not_not.2 (show m.arch1 = ARCH_ARM64 from hnat))]
    exact Reads.pure (mhd m)
  | text subtype contents =>
    refine value_bind_value (reads_u16 subtype) ?_
    rw [if_neg hnat]
    rfl
  | eom e t =>
    refine value_bind_value (Eom.reads e) ?_
    cases t with
    | none => rfl
    | some t =>
      have hne : t.bytes ≠ [] := fun h => absurd (congrArg List.length h) (by simp [Transfer.bytes])
      rw [Option.elim_some, value_rest_bind, if_neg hne, (Transfer.reads t).value_all]
      rfl
  | gsd subs =>
    have hsubs := readAll_subrecords (h.subrecords subs rfl) h.names (by
      simp only [body, length_append] at hlen; omega)
    exact ok_bind (reads_u32 0 (subs.flatMap Gsd.bytes)) (ok_bind hsubs rfl)
  | tir cmds =>
    have hcmds := readAll_commands (h.commands cmds (.inl rfl)) h.names hlen
    exact ok_bind hcmds rfl
  | dbg cmds =>
    have hcmds := readAll_commands (h.commands cmds (.inr (.inl rfl))) h.names hlen
    exact ok_bind hcmds rfl
  | tbt cmds =>
    have hcmds := readAll_commands (h.commands cmds (.inr (.inr rfl))) h.names hlen
    exact ok_bind hcmds rfl

theorem reads {rel' : List Bool} (h : r.WellFormed) (hnat : r.Native) (hrel : checkRel rel r = some rel') :
    Reads (read rel) r.bytes (r, rel') := by
  refine (reads_framed "record size" r.rectyp (length_body_lt h.size)).bind_pure
    ((Reads.lift (parse_body h hnat)).bind_pure ?_)
  rw [hrel]
  exact Reads.pure (r, rel')

end Record

theorem parses_cons {rs : List Record} :
    parses rel (r :: rs) = true ↔ ∃ rel', r.checkRel rel = some rel' ∧ parses rel' rs = true := by
  cases r with
  | gsd subs =>
    simp only [parses, checkRel]
    cases parseGsd rel subs <;> simp
  | mhd h | text s t | tir c | dbg c | tbt c | eom e t => simp [parses, checkRel]

theorem steps_records : ∀ {rs : List Record} {rel : List Bool}, (∀ r ∈ rs, r.WellFormed ∧ r.Native) →
    parses rel rs = true → Steps read rel (rs.map bytes) rs
  | [], rel, _, _ => .nil rel
  | r :: rs, rel, h, hp => by
    obtain ⟨⟨hw, hn⟩, hrs⟩ := forall_mem_cons.1 h
    obtain ⟨rel', hrel, hp⟩ := parses_cons.1 hp
    exact .cons (framed_ne_nil _ _) (reads hw hn hrel) (steps_records hrs hp)

/-! ## What a file that parses holds -/

theorem map_ok {β : Type} {x : Except Error α} {f : α → β} {b : β}
    (h : (do return f (← x) : Except Error β) = .ok b) : ∃ a, b = f a := by
  cases x with
  | error e => cases h
  | ok a => cases h; exact ⟨a, rfl⟩

theorem Record.native_of_parse {rectyp : BitVec 16} (h : parse rectyp body = .ok r) :
    r.Native := by
  unfold parse at h
  split at h
  · obtain ⟨subtype, w', -, h⟩ := value_bind_ok h
    split_ifs at h with hsub
    · obtain ⟨m, w', -, h⟩ := value_bind_ok h
      split_ifs at h with harch
      · cases h
      · cases h; exact not_not.1 harch
    · cases h; exact hsub
  · obtain ⟨e, w', -, h⟩ := value_bind_ok h
    rw [value_rest_bind] at h
    split_ifs at h
    · cases h; trivial
    · obtain ⟨t, w', -, h⟩ := value_bind_ok h
      cases h; trivial
  · cases hu : u32.run body with
    | error e => rw [hu] at h; cases h
    | ok x =>
      rw [hu] at h
      obtain ⟨subs, rfl⟩ := map_ok h
      trivial
  · obtain ⟨cmds, rfl⟩ := map_ok h; trivial
  · obtain ⟨cmds, rfl⟩ := map_ok h; trivial
  · obtain ⟨cmds, rfl⟩ := map_ok h; trivial
  · cases h

theorem Record.read_ok {rel' : List Bool} {bytes left : List Byte}
    (h : (read rel).run bytes = .ok ((r, rel'), left)) :
    r.Native ∧ r.checkRel rel = some rel' := by
  obtain ⟨⟨rectyp, body⟩, w, -, h⟩ := run_bind_ok h
  obtain ⟨r', w', hr, h⟩ := run_bind_ok h
  have hp := run_lift_ok hr
  cases hc : r'.checkRel rel with
  | none => rw [hc] at h; cases h
  | some rel'' =>
    rw [hc] at h
    cases h
    exact ⟨native_of_parse hp, hc⟩

theorem taken_records {rs : List Record} (h : Taken read rel rs) :
    (∀ r ∈ rs, r.Native) ∧ parses rel rs = true := by
  induction h with
  | nil rel => exact ⟨by simp, rfl⟩
  | cons read _ ih =>
    obtain ⟨hn, hrel⟩ := read_ok read
    exact ⟨forall_mem_cons.2 ⟨hn, ih.1⟩, parses_cons.2 ⟨_, hrel, ih.2⟩⟩

/-- **An object file is read back**: well-formed records can be written, and
    parsing the file gives the same records exactly if the modules are for ARM64,
    no other header text has the main header's subtype, and every address is in a
    relocatable psect of its module defined before it. -/
theorem File.parse_write (rs : List Record) (h : ∀ r ∈ rs, r.WellFormed) :
    ∃ file, File.write rs = some file ∧
      (File.parse file = .ok rs ↔ (∀ r ∈ rs, r.Native) ∧ parses [] rs = true) := by
  refine ⟨rs.flatMap bytes, ?_, fun hp => taken_records (taken_of_all hp), fun ⟨hnat, hrel⟩ => ?_⟩
  · rw [File.write, if_pos (all_eq_true.2 fun r hr => asserts_of_wellFormed (h r hr))]
  · rw [File.parse, flatMap_def]
    exact (steps_records (fun r hr => ⟨h r hr, hnat r hr⟩) hrel).all

/-- A module with a psect, an address in it, a command of each kind of argument
    and a transfer address. -/
def smallModule : List Record :=
  [.mhd { name := [0x41], version := [0x56, 0x31] },
    .text 1 [0x76],
    .gsd [.psc { align := 3, flags := psc.REL ||| psc.RD, alloc := 8, name := [0x44] },
      .sdef { flags := sym.DEF ||| sym.REL, value := 0, psindx := 0, name := [0x58] },
      .sref { flags := 0, name := [0x59] }, .other 2 [1, 2, 3, 4]],
    .tir [.staGbl [0x59], .staPq 0 0, .stoImm [1, 2, 3], .stoB, .other 200 [9]],
    .eom { comcod := 0 } (some { psindx := 0, tfradr := 4 })]

theorem smallModule_wellFormed : ∀ r ∈ smallModule, r.WellFormed := by
  intro r hr
  simp only [smallModule, mem_cons, not_mem_nil, or_false] at hr
  rcases hr with rfl | rfl | rfl | rfl | rfl
  all_goals refine ⟨by decide, by decide, ?_, ?_⟩
  all_goals simp [Tir.WellFormed]
  all_goals decide

theorem File.parse_write_small : ∃ file, File.write smallModule = some file ∧
    File.parse file = .ok smallModule := by
  obtain ⟨file, hw, hp⟩ := File.parse_write smallModule smallModule_wellFormed
  exact ⟨file, hw, hp.2 (by decide)⟩

/-- A main header for another architecture, a symbol with an address and no psect
    to have it in, and a header text with the main header's subtype. -/
def foreignRecords : List Record :=
  [.mhd { arch1 := 0, name := [], version := [] },
    .gsd [.sdef { flags := sym.DEF ||| sym.REL, value := 0, psindx := 0, name := [] }],
    .text MHD []]

theorem File.not_parse_write : foreignRecords.length = 3 ∧ ∀ r ∈ foreignRecords,
    r.WellFormed ∧ ∃ file, File.write [r] = some file ∧ File.parse file ≠ .ok [r] := by
  refine ⟨rfl, fun r hr => ⟨?_, r.bytes, ?_, ?_⟩⟩
  · simp only [foreignRecords, mem_cons, not_mem_nil, or_false] at hr
    rcases hr with rfl | rfl | rfl
    all_goals refine ⟨by decide, by decide, ?_, ?_⟩
    all_goals simp
    all_goals decide
  · revert r
    decide
  · revert r
    decide

end Obj
