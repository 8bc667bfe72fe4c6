/-
  Library files are read back: what `parse` gives of what `write` makes.
-/
import Vaxpunk.Obj.Proof.Data

namespace Olb

open Codec Obj List

variable {file A C : List Byte} {ms : List Module} {vbn : ℕ}

/-! ## Headers -/

theorem Lhd.reads (h : Lhd) : Reads Lhd.read h.bytes h :=
  (reads_u8 _).bind ((reads_u8 _).bind ((reads_array _).bind ((reads_u32 _).bind ((reads_u16 _).bind
    ((reads_u16 _).bind ((reads_array _).bind ((reads_u64 _).bind ((reads_u64 _).bind ((reads_u8 _).bind
      ((reads_array _).bind ((reads_u32 _).bind ((reads_u16 _).bind ((reads_u32 _).bind
        ((reads_array _).bind ((reads_u32 _).bind ((reads_u32 _).bind ((reads_u32 _).bind
          ((reads_u32 _).bind ((reads_u32 _).bind ((reads_array _).bind ((reads_u32 _).bind
            ((reads_array _).bind_pure (Reads.pure _)))))))))))))))))))))))

theorem Lhd.length_bytes (h : Lhd) : h.bytes.length = Lhd.SIZE := by
  simp [Lhd.bytes, Lhd.SIZE, h.fill1.2, h.lbrver.2, h.fill2.2, h.fill3.2, h.fill4.2, h.fill5.2]

theorem Idd.reads (d : Idd) : Reads Idd.read d.bytes d :=
  (reads_u16 _).bind ((reads_u16 _).bind ((reads_u32 _).bind_pure (Reads.pure _)))

theorem Idd.reads_two (d e : Idd) : Reads (do return (← Idd.read, ← Idd.read)) (d.bytes ++ e.bytes) (d, e) :=
  d.reads.bind (e.reads.bind_pure (Reads.pure _))

theorem Idd.length_bytes (d : Idd) : d.bytes.length = 8 := by
  simp [Idd.bytes]

theorem header_block {X rest : List Byte} {lhd : Lhd} (hfile : file = padTo BLOCK (lhd.bytes ++ X) ++ rest)
    (hX : X.length ≤ 16) : value Lhd.read file = .ok lhd ∧ (∃ z, file.drop Lhd.SIZE = X ++ z) ∧
      (padTo BLOCK (lhd.bytes ++ X)).length = BLOCK := by
  obtain ⟨z, hz⟩ : ∃ z, file = lhd.bytes ++ (X ++ z) := by
    rw [padTo, append_assoc, append_assoc] at hfile
    exact ⟨_, hfile⟩
  refine ⟨by rw [hz]; exact (Lhd.reads lhd).value _, ⟨z, ?_⟩, ?_⟩
  · rw [hz]
    exact drop_left' lhd.length_bytes
  · rw [length_padTo (by simp [BLOCK]), length_append, lhd.length_bytes]
    simp only [Lhd.SIZE, BLOCK]
    omega

theorem fromAscic_ascic {s : Name} (h : ascicOk 32 s = true) : fromAscic (ascic 32 s) = s := by
  obtain ⟨hlen, hascii⟩ := Bool.and_eq_true _ _ ▸ h
  have hlen : s.length < 32 := of_decide_eq_true hlen
  have hhead : (BitVec.ofNat 8 s.length).toNat = s.length := by
    rw [BitVec.toNat_ofNat]; omega
  have hbytes : (ascic 32 s).val = BitVec.ofNat 8 s.length :: (s ++ replicate 32 0).take 31 := by
    have hput : put (BitVec.ofNat 8 s.length) = [BitVec.ofNat 8 s.length] := by
      rw [put, hhead]
      rfl
    change ((put (BitVec.ofNat 8 s.length) ++ s) ++ replicate 32 0).take 32 = _
    rw [hput]
    rfl
  rw [fromAscic, hbytes, headD_cons, hhead, min_eq_left (by omega), drop_succ_cons, drop_zero,
    take_take, min_eq_left (by omega), take_left, Utf8.lossy_ascii]
  simpa [isAscii] using hascii

/-! ## Layout -/

theorem layOut_offset {α : Type} {write : α → ℕ → List Byte} : ∀ (ms : List α) (vbn : ℕ),
    ∀ r ∈ (layOut write vbn ms).1, r.2 ≠ RFA_INDEX
  | [], _ => by simp [layOut]
  | m :: ms, vbn => forall_mem_cons.2
      ⟨by simp only; decide, layOut_offset ms (vbn + (write m vbn).length / BLOCK)⟩

/-- **Modules laid out**: each stands where its address says, so `R` holds of both,
    and no two are at the same address. -/
theorem layOut_spec {α : Type} {write : α → ℕ → List Byte} {size : α → ℕ} {R : α → Rfa → Prop}
    (hw : ∀ m v, (write m v).length = size m * BLOCK) (hpos : ∀ m, 0 < size m)
    (hlt : file.length < 2 ^ 32 * BLOCK) : ∀ (ms : List α) (vbn : ℕ) {A C : List Byte},
    (∀ m ∈ ms, ∀ (v : ℕ) (A C : List Byte), file = A ++ (write m v ++ C) → A.length = (v - 1) * BLOCK → 0 < v →
      R m (BitVec.ofNat 32 v, BitVec.ofNat 16 DATA_DATA)) →
    file = A ++ ((layOut write vbn ms).2 ++ C) → A.length = (vbn - 1) * BLOCK → 0 < vbn →
    List.Forall₂ R ms (layOut write vbn ms).1 ∧
    (layOut write vbn ms).1.Nodup ∧ ∀ rfa ∈ (layOut write vbn ms).1, vbn ≤ rfa.1.toNat
  | [], _, _, _, _, _, _, _ => ⟨.nil, nodup_nil, by simp [layOut]⟩
  | m :: ms, vbn, A, C, hR, hfile, hA, h0 => by
    obtain ⟨hRm, hRms⟩ := forall_mem_cons.1 hR
    have hdata : (layOut write vbn (m :: ms)).2 =
        write m vbn ++ (layOut write (vbn + (write m vbn).length / BLOCK) ms).2 := rfl
    have hrfas : (layOut write vbn (m :: ms)).1 = (BitVec.ofNat 32 vbn, BitVec.ofNat 16 DATA_DATA) ::
        (layOut write (vbn + (write m vbn).length / BLOCK) ms).1 := rfl
    have hm : (write m vbn).length / BLOCK = size m := by
      rw [hw, Nat.mul_div_cancel _ (by simp [BLOCK])]
    rw [hm] at hdata hrfas
    rw [hdata, append_assoc] at hfile
    have hlen := congrArg length hfile
    simp only [length_append, hw, hA] at hlen
    have hm0 := hpos m
    obtain ⟨hall, hnodup, hge⟩ := layOut_spec hw hpos hlt ms (vbn + size m)
      (A := A ++ write m vbn) (C := C) hRms (by rw [hfile]; simp only [append_assoc])
      (by rw [length_append, hA, hw, ← Nat.add_mul]; congr 1; omega) (by omega)
    have hvbn : (BitVec.ofNat 32 vbn).toNat = vbn := by
      refine toNat_vbn ?_
      have := Nat.mul_le_mul_right BLOCK hm0
      simp only [BLOCK] at hlen hlt this
      omega
    rw [hrfas]
    refine ⟨.cons (hRm vbn A _ hfile hA h0) hall, nodup_cons.2 ⟨fun h => ?_, hnodup⟩,
      forall_mem_cons.2 ⟨hvbn.ge, fun r hr => ?_⟩⟩
    · have := hge _ h
      simp only [hvbn] at this
      omega
    · have := hge r hr
      omega

theorem layOut_records {α : Type} {mhd : α → Mhd} {size : ℕ} {records : α → List (List Byte)}
    {ms : List α} (hlt : file.length < 2 ^ 32 * BLOCK) (hsize : 16 ≤ size) (hsize' : size ≤ Mhd.SIZE)
    (hmhd : ∀ m, (mhd m).bytes.take size ++ List.replicate (Mhd.SIZE - size) 0 = (mhd m).bytes)
    (hid : ∀ m, (mhd m).id = MHD_ID) (hrec : ∀ m ∈ ms, ∀ r ∈ records m, r.length < 2 ^ 16)
    (hfile : file = A ++ ((layOut (fun m v => writeData (mhd m) size (records m) v) vbn ms).2 ++ C))
    (hA : A.length = (vbn - 1) * BLOCK) (h0 : 0 < vbn) :
    List.Forall₂ (fun m rfa => moduleRecords file rfa size = .ok (mhd m, (records m).takeWhile (· ≠ EOT)) ∧ m ∈ ms)
      ms (layOut (fun m v => writeData (mhd m) size (records m) v) vbn ms).1 ∧
    (layOut (fun m v => writeData (mhd m) size (records m) v) vbn ms).1.Nodup := by
  obtain ⟨hall, hnodup, -⟩ := layOut_spec
    (R := fun m rfa => moduleRecords file rfa size = .ok (mhd m, (records m).takeWhile (· ≠ EOT)) ∧ m ∈ ms)
    (fun m v => length_writeData (mhd m) size (records m) v)
    (fun m => lt_dataBlocks.2 (by have := length_dataStream (mhd m) size (records m); omega)) hlt ms vbn
    (fun m hm v A C hfile hA h0 => by
      obtain ⟨recs, hd⟩ := HasData.of_append hfile hA h0 hlt
      exact ⟨moduleRecords_spec hd hsize hsize' (hmhd m) (hid m) (hrec m hm), hm⟩)
    hfile hA h0
  exact ⟨hall, hnodup⟩

def indexBlocks (keys : List (Name × ℕ)) : ℕ := (indexNodes keys [] 0).length

section index
variable {keys : List (Name × ℕ)} {rfas : List Rfa} {first : ℕ}

theorem indexNodes_size (hk : ∀ k ∈ keys, keyOk k.1 = true) (hr : ∀ r ∈ rfas, r.2 ≠ RFA_INDEX) :
    ∀ n ∈ indexNodes keys rfas first, n.entries.length ≤ INDEX_SPACE := by
  by_cases hne : keys = []
  · simp [indexNodes, hne]
  · exact (rooted_indexNodes hne hk hr).1

theorem length_index (hk : ∀ k ∈ keys, keyOk k.1 = true) (hr : ∀ r ∈ rfas, r.2 ≠ RFA_INDEX) :
    (index keys rfas first).1.length = indexBlocks keys * BLOCK := by
  rw [index_blocks, length_flatMap_blocks fun n hn => Node.length_bytes (indexNodes_size hk hr n hn),
    length_indexNodes rfas [] first 0, indexBlocks]

theorem blocks_index (hk : ∀ k ∈ keys, keyOk k.1 = true) (n : ℕ) :
    (index keys (replicate n (0, 0)) 0).1.length / BLOCK = indexBlocks keys := by
  rw [length_index hk fun r hr => ?_, Nat.mul_div_cancel _ (by simp [BLOCK])]
  rw [(mem_replicate.1 hr).2]
  decide

theorem keyOk_nameKeys {names : List Name} (h : ∀ n ∈ names, keyOk n = true) :
    ∀ k ∈ nameKeys names, keyOk k.1 = true :=
  fun _ hk => h _ (fst_mem_of_mem_zipIdx hk)

/-- **An index in a file is read back**, after indexes in the blocks before it. -/
theorem entries_of_append {seen : List (BitVec 32)} (hk : ∀ k ∈ keys, keyOk k.1 = true)
    (hr : ∀ r ∈ rfas, r.2 ≠ RFA_INDEX) (hfile : file = A ++ ((index keys rfas first).1 ++ C))
    (hA : A.length = (first - 1) * BLOCK) (h0 : 0 < first) (hlt : file.length < 2 ^ 32 * BLOCK)
    (hseen : ∀ n ∈ seen, n.toNat < first) :
    ∃ seen', entries file (index keys rfas first).2 seen =
        .ok (seen', keys.map fun k => (k.1, rfas.getD k.2 (0, 0))) ∧
      ∀ n ∈ seen', n.toNat < first + indexBlocks keys := by
  have hlen := congrArg length hfile
  rw [length_append, length_append, length_index hk hr, hA] at hlen
  have hfit : first + indexBlocks keys ≤ 2 ^ 32 := by
    simp only [BLOCK] at hlen hlt
    omega
  have hcount : (indexNodes keys rfas first).length = indexBlocks keys := length_indexNodes rfas [] first 0
  have hnum : ∀ i < indexBlocks keys, (number first i).toNat = first + i := fun i hi => toNat_vbn (by omega)
  rw [index_blocks] at hfile
  have hN := HasNodes.of_append hfile hA h0 (indexNodes_size hk hr) (by rw [hcount]; exact hfit)
  have hnew : ∀ i < (indexNodes keys rfas first).length, number first i ∉ seen := fun i hi hmem => by
    have := hseen _ hmem
    rw [hnum i (by omega)] at this
    omega
  obtain ⟨seen', he, hs⟩ := entries_index hk hr h0 hN hnew
  refine ⟨seen', he, fun n hn => ?_⟩
  rcases hs n hn with h | ⟨i, hi, rfl⟩
  · have := hseen n h
    omega
  · rw [hnum i (by omega)]
    omega

end index

/-! ## Names and sorting -/

theorem hasTwice_of_nodup : ∀ {keys : List Name}, keys.Nodup → hasTwice keys = false
  | [], _ => rfl
  | [_], _ => rfl
  | a :: b :: keys, h => by
    obtain ⟨ha, hb⟩ := nodup_cons.1 h
    have hne : a ≠ b := fun hab => ha (hab ▸ mem_cons_self)
    have ih := hasTwice_of_nodup hb
    simp only [hasTwice, tail_cons] at ih ⊢
    rw [zip_cons_cons, any_cons, ih]
    simp [hne]

theorem map_nameKeys {names : List Name} {rfas : List Rfa} (h : names.length = rfas.length) :
    ((nameKeys names).map fun k => (k.1, rfas.getD k.2 (0, 0))) = names.zip rfas := by
  refine ext_getElem (by simp [nameKeys, h]) fun i h1 h2 => ?_
  rw [length_map, nameKeys, length_zipIdx] at h1
  have hi : i < rfas.length := h ▸ h1
  simp [nameKeys, getElem?_eq_getElem hi]

theorem symbolLe_total (a b : Name × ℕ) : symbolLe a b ∨ symbolLe b a := by
  rcases Std.lt_trichotomy a.1 b.1 with h | h | h
  · exact .inl (.inl h)
  · rcases le_total a.2 b.2 with h' | h'
    · exact .inl (.inr ⟨h, h'⟩)
    · exact .inr (.inr ⟨h.symm, h'⟩)
  · exact .inr (.inl h)

theorem symbolLe_trans {a b c : Name × ℕ} (h : symbolLe a b) (h' : symbolLe b c) : symbolLe a c := by
  rcases h with h | ⟨h, h2⟩ <;> rcases h' with h' | ⟨h', h2'⟩
  · exact Or.inl (List.lt_trans h h')
  · exact .inl (h' ▸ h)
  · exact .inl (h ▸ h')
  · exact .inr ⟨h.trans h', h2.trans h2'⟩

instance : Std.Total symbolLe := ⟨symbolLe_total⟩

instance : IsTrans (Name × ℕ) symbolLe := ⟨fun _ _ _ => symbolLe_trans⟩

theorem le_of_symbolLe {a b : Name × ℕ} (h : symbolLe a b) : a.1 ≤ b.1 := by
  rcases h with h | ⟨h, -⟩
  · exact List.le_of_lt h
  · exact h ▸ List.le_refl _

theorem symbolKeys_eq (ms : List Module) : Library.symbolKeys ms =
    (ms.zipIdx.flatMap fun x => x.1.symbols.map fun s => (s, x.2)).insertionSort symbolLe := rfl

theorem fst_symbols : ∀ (ms : List Module) (n : ℕ),
    ((ms.zipIdx n).flatMap fun x => x.1.symbols.map fun s => (s, x.2)).map Prod.fst = ms.flatMap Module.symbols
  | [], _ => rfl
  | m :: ms, n => by
    rw [zipIdx_cons, flatMap_cons, map_append, fst_symbols ms, flatMap_cons, map_map]
    exact congrArg (· ++ _) (map_id _)

theorem filter_symbols {i : ℕ} : ∀ (ms : List Module) (n : ℕ),
    ((ms.zipIdx n).flatMap fun x => x.1.symbols.map fun s => (s, x.2)).filter (·.2 = n + i) =
      ((ms[i]?.map Module.symbols).getD []).map fun s => (s, n + i)
  | [], n => by simp
  | m :: ms, n => by
    rw [zipIdx_cons, flatMap_cons, filter_append]
    cases i with
    | zero =>
      have hrest : ((ms.zipIdx (n + 1)).flatMap fun x => x.1.symbols.map fun s => (s, x.2)).filter
          (·.2 = n + 0) = [] := by
        refine filter_eq_nil_iff.2 fun k hk => ?_
        obtain ⟨x, hx, hk⟩ := mem_flatMap.1 hk
        obtain ⟨s, -, rfl⟩ := mem_map.1 hk
        have := le_snd_of_mem_zipIdx hx
        simp only [decide_eq_true_eq]
        omega
      rw [hrest, append_nil, filter_eq_self.2 (by simp)]
      simp
    | succ i =>
      have hhead : (m.symbols.map fun s => (s, n)).filter (·.2 = n + (i + 1)) = [] :=
        filter_eq_nil_iff.2 (by simp)
      have ih := filter_symbols ms (n + 1) (i := i)
      rw [Nat.add_assoc, Nat.add_comm 1] at ih
      rw [hhead, nil_append, ih, getElem?_cons_succ]

/-- **The symbol index gives a module its symbols**, sorted. -/
theorem symbolKeys_filter {m : Module} {i : ℕ} (h : ms[i]? = some m) :
    ((Library.symbolKeys ms).filter (·.2 = i)).map Prod.fst = m.symbols.insertionSort (· ≤ ·) := by
  have hp := perm_insertionSort symbolLe (ms.zipIdx.flatMap fun x => x.1.symbols.map fun s => (s, x.2))
  have hf := filter_symbols ms 0 (i := i)
  rw [Nat.zero_add, h, Option.map_some, Option.getD_some] at hf
  rw [symbolKeys_eq]
  refine List.Perm.eq_of_pairwise' (r := (· ≤ ·)) ?_ (pairwise_insertionSort _ _) ?_
  · exact pairwise_map.2 (((pairwise_insertionSort symbolLe _).filter _).imp le_of_symbolLe)
  · refine (((hp.filter _).map Prod.fst).trans ?_).trans (perm_insertionSort _ _).symm
    rw [hf, map_map]
    exact (map_id _).symm ▸ .rfl

/-! ## Object libraries -/

theorem splitObject_spec : ∀ {fuel : ℕ} {object : List Byte} {rs : List (List Byte)},
    splitObject fuel object = some rs → rs.flatten = object ∧ ∀ r ∈ rs, 4 ≤ r.length ∧ r.length < 2 ^ 16
  | _, [], rs, h => by
    rw [splitObject] at h
    obtain rfl := Option.some.inj h
    simp
  | 0, _ :: _, _, h => by simp [splitObject] at h
  | fuel + 1, b :: bs, rs, h => by
    rw [splitObject] at h
    generalize hsize : (if 4 ≤ (b :: bs).length then Words.ofLe (Words.slice (b :: bs) 2 2) else 0) = size at h
    split_ifs at h with hok
    obtain ⟨rest, hrest, rfl⟩ := Option.map_eq_some_iff.1 h
    obtain ⟨hflat, hall⟩ := splitObject_spec hrest
    have hlen : ((b :: bs).take size).length = size := by
      rw [length_take, min_eq_left hok.2]
    have hlt : size < 2 ^ 16 := by
      rw [← hsize, if_pos (by omega)]
      have := Words.ofLe_lt (Words.slice (b :: bs) 2 2)
      rwa [Words.length_slice (by omega)] at this
    refine ⟨by rw [flatten_cons, hflat, take_append_drop], forall_mem_cons.2 ⟨?_, hall⟩⟩
    rw [hlen]
    exact ⟨hok.1, hlt⟩

theorem objectRecords_spec {object : List Byte} {rs : List (List Byte)} (h : objectRecords object = some rs) :
    (rs.takeWhile (· ≠ EOT)).flatten = object ∧ ∀ r ∈ rs, r.length < 2 ^ 16 := by
  obtain ⟨hflat, hall⟩ := splitObject_spec h
  refine ⟨?_, fun r hr => (hall r hr).2⟩
  rw [takeWhile_eq_self_iff.2 fun r hr => ?_, hflat]
  have := (hall r hr).1
  simp only [ne_eq, decide_not, Bool.not_eq_eq_eq_not, Bool.not_true, decide_eq_false_iff_not]
  rintro rfl
  simp [EOT] at this

namespace Library

/-- The library with the modules and their symbols sorted. -/
def sorted (lib : Library) : Library :=
  { lib with modules := lib.sortedModules.map fun m => { m with symbols := m.symbols.insertionSort (· ≤ ·) } }

/-- What `write` asks of modules: names and symbols differ and can be keys, and
    objects are records. -/
structure WellFormed (lib : Library) : Prop where
  names : (lib.modules.map Module.name).Nodup
  symbols : (lib.modules.flatMap Module.symbols).Nodup
  keyNames : ∀ m ∈ lib.modules, keyOk m.name = true
  keySymbols : ∀ m ∈ lib.modules, ∀ s ∈ m.symbols, keyOk s = true
  objects : ∀ m ∈ lib.modules, (objectRecords m.object).isSome = true

/-- The texts fit the counted strings of the headers. -/
structure Short (lib : Library) : Prop where
  creator : ascicOk 32 lib.creator = true
  idents : ∀ m ∈ lib.modules, ascicOk 32 m.ident = true

theorem perm_sortedModules (lib : Library) : lib.sortedModules.Perm lib.modules :=
  perm_insertionSort _ _

theorem asserts_of_wellFormed {lib : Library} (h : lib.WellFormed) (hs : lib.Short) : lib.asserts = true := by
  have hnames : (lib.sortedModules.map Module.name).Nodup :=
    (lib.perm_sortedModules.map _).nodup_iff.2 h.names
  have hsymbols : ((symbolKeys lib.sortedModules).map Prod.fst).Nodup := by
    refine (((perm_insertionSort _ _).map _).trans (.of_eq ?_)).nodup_iff.2
      ((lib.perm_sortedModules.flatMap_right _).nodup_iff.2 h.symbols)
    exact fst_symbols _ _
  rw [asserts, hasTwice_of_nodup hnames, hasTwice_of_nodup hsymbols, hs.creator]
  simp only [Bool.not_false, Bool.and_true, Bool.true_and, all_eq_true, Bool.and_eq_true]
  exact fun m hm => ⟨⟨⟨h.keyNames m hm, h.keySymbols m hm⟩, hs.idents m hm⟩, h.objects m hm⟩

section read
variable {file : List Byte}

theorem readModules_spec : ∀ {ms : List Module} {rfas seen : List Rfa},
    List.Forall₂ (fun m rfa => ∃ mhd records, moduleRecords file rfa Mhd.SIZE = .ok (mhd, records) ∧
      fromAscic mhd.objid = m.ident ∧ mhd.datim = m.inserted ∧ records.flatten = m.object) ms rfas →
    rfas.Nodup → (∀ r ∈ rfas, r ∉ seen) →
    readModules file seen ((ms.map Module.name).zip rfas) = .ok (ms.map fun m => { m with symbols := [] })
  | [], _, _, .nil, _, _ => rfl
  | m :: ms, rfa :: rfas, seen, .cons ⟨mhd, records, hrec, hid, htime, hobj⟩ hall, hn, hseen => by
    obtain ⟨hni, hn⟩ := nodup_cons.1 hn
    obtain ⟨hs, hseen⟩ := forall_mem_cons.1 hseen
    have hnew : ∀ r ∈ rfas, r ∉ rfa :: seen := fun r hr hmem => by
      rcases mem_cons.1 hmem with rfl | hmem
      · exact hni hr
      · exact hseen r hr hmem
    have ih := readModules_spec hall hn hnew
    rw [map_cons, zip_cons_cons, readModules, if_neg hs, map_cons]
    refine ok_bind hrec (ok_bind ih ?_)
    rw [hid, htime, hobj]
    rfl

theorem giveSymbols_spec {rfas : List Rfa} (hn : rfas.Nodup) : ∀ {ks : List (Name × ℕ)} {ms : List Module},
    (∀ k ∈ ks, k.2 < rfas.length) →
    giveSymbols rfas ms (ks.map fun k => (k.1, rfas.getD k.2 (0, 0))) =
      .ok (ms.mapIdx fun i m => { m with symbols := m.symbols ++ (ks.filter (·.2 = i)).map Prod.fst })
  | [], ms, _ => by
    refine congrArg Except.ok (ext_getElem? fun i => ?_)
    simp
  | k :: ks, ms, hks => by
    obtain ⟨hk, hks⟩ := forall_mem_cons.1 hks
    have hfind : rfas.findIdx? (· == rfas.getD k.2 (0, 0)) = some k.2 := by
      rw [getD_eq_getElem _ _ hk, findIdx?_eq_some_iff_getElem]
      refine ⟨hk, beq_self_eq_true _, fun j hj => ?_⟩
      have hne : rfas[j] ≠ rfas[k.2] := fun he => hj.ne (hn.getElem_inj_iff.1 he)
      simpa using hne
    rw [map_cons, giveSymbols, hfind]
    simp only
    rw [giveSymbols_spec hn hks]
    congr 1
    refine ext_getElem? fun i => ?_
    simp only [getElem?_mapIdx, getElem?_modify]
    by_cases hi : k.2 = i
    · rw [filter_cons_of_pos (by simpa using hi)]
      cases ms[i]? <;> simp [hi]
    · rw [filter_cons_of_neg (by simpa using hi)]
      cases ms[i]? <;> simp [hi]

end read

/-! ## The file -/

section file
variable (lib : Library)

abbrev keys : List (Name × ℕ) := nameKeys (lib.sortedModules.map Module.name)

def firstData : ℕ := 2 + indexBlocks lib.keys + indexBlocks (symbolKeys lib.sortedModules)

def rfas : List Rfa := (layOut Module.writeData lib.firstData lib.sortedModules).1

variable {lib}

theorem bytes_eq (hn : ∀ k ∈ lib.keys, keyOk k.1 = true)
    (hs : ∀ k ∈ symbolKeys lib.sortedModules, keyOk k.1 = true) : ∃ lhd : Lhd, ∃ head : List Byte,
    lhd.kind = TYP_EOBJ ∧ lhd.nindex = 2 ∧ lhd.sanity = SANEID3 ∧ lhd.majorid = MAJORID ∧
      lhd.mhdusz.toNat + 16 = Mhd.SIZE ∧ lhd.lbrver = ascic 32 lib.creator ∧ lhd.credat = lib.created ∧
      lhd.updtim = lib.updated ∧
    head = padTo BLOCK (lhd.bytes ++
      ((⟨IDD_FLAGS, BitVec.ofNat 16 MAX_KEY, (index lib.keys lib.rfas 2).2⟩ : Idd).bytes ++
        (⟨IDD_FLAGS, BitVec.ofNat 16 MAX_KEY, (index (symbolKeys lib.sortedModules) lib.rfas
          (2 + indexBlocks lib.keys)).2⟩ : Idd).bytes)) ∧
    lib.bytes = head ++ ((index lib.keys lib.rfas 2).1 ++
      ((index (symbolKeys lib.sortedModules) lib.rfas (2 + indexBlocks lib.keys)).1 ++
        (layOut Module.writeData lib.firstData lib.sortedModules).2)) := by
  unfold bytes
  simp only
  rw [blocks_index hn, blocks_index hs]
  exact ⟨_, _, rfl, rfl, rfl, rfl, rfl, rfl, rfl, rfl, rfl, rfl⟩

theorem keyOk_keys (h : lib.WellFormed) : ∀ k ∈ lib.keys, keyOk k.1 = true :=
  keyOk_nameKeys (forall_mem_map.2 fun m hm => h.keyNames m (lib.perm_sortedModules.mem_iff.1 hm))

theorem mem_symbolKeys {k : Name × ℕ} (hk : k ∈ symbolKeys ms) : ∃ m ∈ ms, k.1 ∈ m.symbols ∧ k.2 < ms.length:= by
  rw [symbolKeys_eq, mem_insertionSort] at hk
  obtain ⟨x, hx, hk⟩ := mem_flatMap.1 hk
  obtain ⟨s, hs, rfl⟩ := mem_map.1 hk
  exact ⟨x.1, fst_mem_of_mem_zipIdx hx, hs, by simpa using snd_lt_of_mem_zipIdx hx⟩

theorem keyOk_symbolKeys (h : lib.WellFormed) : ∀ k ∈ symbolKeys lib.sortedModules, keyOk k.1 = true := by
  intro k hk
  obtain ⟨m, hm, hs, -⟩ := mem_symbolKeys hk
  exact h.keySymbols m (lib.perm_sortedModules.mem_iff.1 hm) _ hs

theorem readModules_of_append
    (hobj : ∀ m ∈ ms, (objectRecords m.object).isSome = true) (hid : ∀ m ∈ ms, ascicOk 32 m.ident = true)
    (hlt : file.length < 2 ^ 32 * BLOCK) (hfile : file = A ++ ((layOut Module.writeData vbn ms).2 ++ C))
    (hA : A.length = (vbn - 1) * BLOCK) (h0 : 0 < vbn) :
    readModules file [] ((ms.map Module.name).zip (layOut Module.writeData vbn ms).1) =
        .ok (ms.map fun m => { m with symbols := [] }) ∧
      (layOut Module.writeData vbn ms).1.Nodup ∧ (layOut Module.writeData vbn ms).1.length = ms.length := by
  have hrecords : ∀ m ∈ ms, (((objectRecords m.object).getD []).takeWhile (· ≠ EOT)).flatten = m.object ∧
      ∀ r ∈ (objectRecords m.object).getD [], r.length < 2 ^ 16 := by
    intro m hm
    obtain ⟨rs, hrs⟩ := Option.isSome_iff_exists.1 (hobj m hm)
    rw [hrs]
    exact objectRecords_spec hrs
  obtain ⟨hall, hnodup⟩ := layOut_records hlt (show 16 ≤ Mhd.SIZE by decide) le_rfl
    (fun m => by rw [take_of_length_le (Mhd.length_bytes _).le]; simp) (fun _ => rfl)
    (fun m hm => (hrecords m hm).2) hfile hA h0
  refine ⟨readModules_spec (hall.imp fun m rfa hm => ?_) hnodup (by simp), hnodup, hall.length_eq.symm⟩
  exact ⟨_, _, hm.1, fromAscic_ascic (hid m hm.2), rfl, (hrecords m hm.2).1⟩

theorem giveSymbols_symbolKeys {rfas : List Rfa} (hn : rfas.Nodup) (hlen : rfas.length = ms.length) :
    giveSymbols (((ms.map Module.name).zip rfas).map Prod.snd) (ms.map fun m => { m with symbols := [] })
        ((symbolKeys ms).map fun k => (k.1, rfas.getD k.2 (0, 0))) =
      .ok (ms.map fun m => { m with symbols := m.symbols.insertionSort (· ≤ ·) }) := by
  rw [map_snd_zip (by rw [length_map]; exact hlen.le), giveSymbols_spec hn fun k hk => ?_]
  · refine congrArg Except.ok (ext_getElem? fun i => ?_)
    rw [getElem?_mapIdx, getElem?_map, getElem?_map]
    cases hi : ms[i]? with
    | none => rfl
    | some m =>
      simp only [Option.map_some, nil_append]
      rw [symbolKeys_filter hi]
  · obtain ⟨_, _, _, hk⟩ := mem_symbolKeys hk
    omega

/-- **What is written is read back**, as long as block numbers do. -/
theorem parse_bytes (h : lib.WellFormed) (hs : lib.Short) (hlt : lib.bytes.length < 2 ^ 32 * BLOCK) :
    Library.parse lib.bytes = .ok lib.sorted := by
  have hn := keyOk_keys h
  have hsym := keyOk_symbolKeys h
  obtain ⟨lhd, head, hkind, hnindex, hsanity, hmajor, hsize, hver, hcre, hupd, rfl, hfile⟩ := bytes_eq hn hsym
  generalize lib.bytes = file at hfile hlt
  obtain ⟨hread, ⟨z, hdrop⟩, hhead⟩ := header_block hfile (by simp [Idd.length_bytes])
  have hoff : ∀ r ∈ lib.rfas, r.2 ≠ RFA_INDEX := layOut_offset _ _
  have hnlen : (index lib.keys lib.rfas 2).1.length = indexBlocks lib.keys * BLOCK := length_index hn hoff
  have hslen : (index (symbolKeys lib.sortedModules) lib.rfas (2 + indexBlocks lib.keys)).1.length =
      indexBlocks (symbolKeys lib.sortedModules) * BLOCK := length_index hsym hoff
  -- the file, cut before each of its parts
  generalize padTo BLOCK (lhd.bytes ++ _) = head at hfile hhead
  have hfile₂ := hfile
  rw [← append_assoc] at hfile₂
  have hfile₃ := hfile₂
  rw [← append_assoc, ← append_nil (layOut _ _ _).2] at hfile₃
  obtain ⟨seen, hnames, hseen⟩ := entries_of_append hn hoff hfile (by rw [hhead]; rfl) (by omega) hlt
    (show ∀ n ∈ ([] : List (BitVec 32)), n.toNat < 2 by simp)
  obtain ⟨seen', hsymbols, -⟩ := entries_of_append hsym hoff hfile₂
    (by rw [length_append, hhead, hnlen]; simp only [BLOCK]; omega) (by omega) hlt hseen
  obtain ⟨hmodules, hnodup, hlen⟩ := readModules_of_append
    (fun m hm => h.objects m (lib.perm_sortedModules.mem_iff.1 hm))
    (fun m hm => hs.idents m (lib.perm_sortedModules.mem_iff.1 hm)) hlt hfile₃
    (by
      rw [length_append, length_append, hhead, hnlen, hslen, firstData]
      simp only [BLOCK]; omega)
    (by rw [firstData]; omega)
  rw [map_nameKeys (by rw [length_map]; exact hlen.symm)] at hnames
  rw [parse]
  refine ok_bind hread ?_
  rw [if_neg (by simp [hkind, hnindex, hsanity]), if_neg (by simp [hmajor]), if_neg (by simp [hsize]), hdrop]
  refine ok_bind ((Idd.reads_two _ _).value z) (ok_bind hnames (ok_bind hsymbols (ok_bind hmodules
    (ok_bind (giveSymbols_symbolKeys hnodup hlen) ?_))))
  rw [hver, hcre, hupd, fromAscic_ascic hs.creator]
  rfl

end file

/-- **Object libraries are read back** with modules and symbols sorted, however many
    there are and however large. -/
theorem write_then_parse {lib : Library} (h : lib.WellFormed) (hs : lib.Short) : ∃ file, lib.write = some file ∧
    (file.length < 2 ^ 32 * BLOCK → Library.parse file = .ok lib.sorted) :=
  ⟨lib.bytes, by rw [write, asserts_of_wellFormed h hs, if_pos rfl], parse_bytes h hs⟩

/-- Two modules, one with two symbols. -/
def smallLibrary : Library where
  creator := [0x76]
  created := 1
  updated := 2
  modules :=
    [⟨[0x42], [0x56], 3, [[0x59], [0x58]], [1, 0, 4, 0]⟩, ⟨[0x41], [], 4, [], []⟩]

theorem write_then_parse_small : smallLibrary.WellFormed ∧ smallLibrary.Short ∧
    ∃ file, smallLibrary.write = some file ∧ Library.parse file = .ok smallLibrary.sorted := by
  have h : smallLibrary.WellFormed := ⟨by decide, by decide, by decide, by decide, by decide⟩
  have hs : smallLibrary.Short := ⟨by decide, by decide⟩
  obtain ⟨file, hw, hp⟩ := write_then_parse h hs
  refine ⟨h, hs, file, hw, hp ?_⟩
  have hfile : some file = some smallLibrary.bytes := hw ▸ by decide +kernel
  rw [Option.some.inj hfile]
  decide +kernel

/-- An empty library by a librarian with a long name. -/
def longCreator : Library where
  creator := List.replicate 32 0x41
  created := 0
  updated := 0
  modules := []

theorem longCreator_not_written : longCreator.WellFormed ∧ longCreator.write = none :=
  ⟨⟨by decide, by decide, by decide, by decide, by decide⟩, by decide +kernel⟩

end Library

/-! ## Text libraries -/

theorem take_header (datim : BitVec 64) {size : ℕ} (h : 16 ≤ size) (h' : size ≤ Mhd.SIZE) :
    (header 1 datim []).bytes.take size ++ List.replicate (Mhd.SIZE - size) 0 = (header 1 datim []).bytes := by
  have hzeros : put (0 : BitVec 8) ++ (ascic 32 []).val = replicate 33 0 := by decide
  have hbytes : (header 1 datim []).bytes = (put (0 : BitVec 8) ++ (put MHD_ID ++ ((Bytes.zero 2).val ++
      (put (1 : BitVec 32) ++ put datim)))) ++ replicate 33 0 := by
    rw [← hzeros]
    simp only [header, Mhd.bytes, append_assoc]
  have hlen : (put (0 : BitVec 8) ++ (put MHD_ID ++ ((Bytes.zero 2).val ++
      (put (1 : BitVec 32) ++ put datim)))).length = 16 := by simp [Bytes.zero]
  rw [hbytes, take_append, hlen, take_of_length_le (by omega), take_replicate, append_assoc,
    replicate_append_replicate]
  congr 2
  simp only [Mhd.SIZE] at h' ⊢
  omega

namespace TextLibrary

/-- The library with the modules sorted. -/
def sorted (lib : TextLibrary) : TextLibrary := { lib with modules := lib.sortedModules }

/-- What `write` documents, and a creator of up to 31 characters. -/
structure WellFormed (lib : TextLibrary) : Prop where
  names : (lib.modules.map TextModule.name).Nodup
  short : ∀ m ∈ lib.modules, m.name.length ≤ lib.kind.maxKey
  capitals : ∀ m ∈ lib.modules, isAscii m.name = true ∧ isUpper m.name = true
  lines : ∀ m ∈ lib.modules, ∀ l ∈ m.lines, l.bytes.length ≤ 255
  creator : ascicOk 32 lib.creator = true

section file
variable {lib : TextLibrary}

theorem perm_sortedModules (lib : TextLibrary) : lib.sortedModules.Perm lib.modules :=
  perm_insertionSort _ _

theorem keyOk_name (h : lib.WellFormed) {m : TextModule} (hm : m ∈ lib.modules) : keyOk m.name = true := by
  have hlen := h.short m hm
  have hmax : lib.kind.maxKey ≤ MAX_KEY := by cases lib.kind <;> decide
  rw [keyOk, (h.capitals m hm).1, Bool.and_true, decide_eq_true_eq]
  omega

theorem asserts_of_wellFormed (h : lib.WellFormed) : lib.asserts = true := by
  have hnames : (lib.sortedModules.map TextModule.name).Nodup :=
    (lib.perm_sortedModules.map _).nodup_iff.2 h.names
  rw [asserts, hasTwice_of_nodup hnames, h.creator]
  simp only [Bool.not_false, Bool.and_true, Bool.true_and, all_eq_true, Bool.and_eq_true, decide_eq_true_eq]
  exact fun m hm => ⟨⟨⟨h.short m hm, (h.capitals m hm).2⟩, keyOk_name h hm⟩, h.lines m hm⟩

theorem readLines_map : ∀ ls : List Line, readLines (ls.map Line.bytes) = .ok ls
  | [] => rfl
  | l :: ls => by
    rw [map_cons, readLines, dif_pos l.utf8, readLines_map ls]
    rfl

/-- A module with its lines up to the first that looks like the end marker. -/
def cut (m : TextModule) : TextModule := { m with lines := m.lines.takeWhile (·.bytes ≠ EOT) }

theorem readModules_spec {size : ℕ} : ∀ {ms : List TextModule} {rfas : List Rfa},
    List.Forall₂ (fun m rfa => ∃ mhd, moduleRecords file rfa size = .ok (mhd, (cut m).lines.map Line.bytes) ∧
      mhd.datim = m.inserted) ms rfas →
    readModules file size ((ms.map TextModule.name).zip rfas) = .ok (ms.map cut)
  | [], _, .nil => rfl
  | m :: ms, rfa :: rfas, .cons ⟨mhd, hrec, htime⟩ hall => by
    rw [map_cons, zip_cons_cons, readModules, map_cons]
    refine ok_bind hrec (ok_bind (readLines_map _) (ok_bind (readModules_spec hall) ?_))
    rw [htime]
    rfl

theorem map_takeWhile (ls : List Line) :
    (ls.map Line.bytes).takeWhile (· ≠ EOT) = (ls.takeWhile (·.bytes ≠ EOT)).map Line.bytes := by
  rw [takeWhile_map]
  rfl

abbrev keys (lib : TextLibrary) : List (Name × ℕ) := nameKeys (lib.sortedModules.map TextModule.name)

def rfas (lib : TextLibrary) : List Rfa :=
  (layOut (moduleData lib.kind) (2 + indexBlocks lib.keys) lib.sortedModules).1

theorem keyOk_keys (h : lib.WellFormed) : ∀ k ∈ lib.keys, keyOk k.1 = true :=
  keyOk_nameKeys (forall_mem_map.2 fun _ hm => keyOk_name h (lib.perm_sortedModules.mem_iff.1 hm))

theorem bytes_eq (hn : ∀ k ∈ lib.keys, keyOk k.1 = true) : ∃ lhd : Lhd, ∃ head : List Byte,
    lhd.kind = lib.kind.lbrType ∧ lhd.nindex = 1 ∧ lhd.sanity = SANEID3 ∧ lhd.majorid = MAJORID ∧
      lhd.mhdusz = BitVec.ofNat 8 lib.kind.mhdusz ∧ lhd.lbrver = ascic 32 lib.creator ∧
      lhd.credat = lib.created ∧ lhd.updtim = lib.updated ∧
    head = padTo BLOCK (lhd.bytes ++
      (⟨lib.kind.idd.1, lib.kind.idd.2, (index lib.keys lib.rfas 2).2⟩ : Idd).bytes) ∧
    lib.bytes = head ++ ((index lib.keys lib.rfas 2).1 ++
      (layOut (moduleData lib.kind) (2 + indexBlocks lib.keys) lib.sortedModules).2) := by
  unfold bytes
  simp only
  rw [blocks_index hn]
  exact ⟨_, _, rfl, rfl, rfl, rfl, rfl, rfl, rfl, rfl, rfl, rfl⟩

theorem fromLbrType_lbrType (k : TextKind) : TextKind.fromLbrType k.lbrType = some k := by
  cases k <;> rfl

theorem readModules_of_append {kind : TextKind} {ms : List TextModule}
    (hlines : ∀ m ∈ ms, ∀ l ∈ m.lines, l.bytes.length ≤ 255) (hlt : file.length < 2 ^ 32 * BLOCK)
    (hfile : file = A ++ ((layOut (moduleData kind) vbn ms).2 ++ C))
    (hA : A.length = (vbn - 1) * BLOCK) (h0 : 0 < vbn) :
    readModules file (16 + kind.mhdusz) ((ms.map TextModule.name).zip (layOut (moduleData kind) vbn ms).1) =
        .ok (ms.map cut) ∧ (layOut (moduleData kind) vbn ms).1.length = ms.length := by
  have hmhd : 16 + kind.mhdusz ≤ Mhd.SIZE := by cases kind <;> decide
  have h16 : 16 ≤ 16 + kind.mhdusz := Nat.le_add_right 16 _
  have hheader := fun m : TextModule => take_header m.inserted h16 hmhd
  have hshort : ∀ m ∈ ms, ∀ r ∈ m.lines.map Line.bytes, r.length < 2 ^ 16 := fun m hm =>
    forall_mem_map.2 fun l hl => (hlines m hm l hl).trans_lt (by norm_num)
  obtain ⟨hall, -⟩ := layOut_records hlt h16 hmhd hheader (fun _ => rfl) hshort hfile hA h0
  refine ⟨readModules_spec (hall.imp fun m rfa hm => ⟨header 1 m.inserted [], hm.1.trans ?_, rfl⟩),
    hall.length_eq.symm⟩
  rw [map_takeWhile]
  rfl

/-- **What is read back**: the modules, each up to the first line that looks like the
    end marker. -/
theorem parse_bytes (h : lib.WellFormed) (hlt : lib.bytes.length < 2 ^ 32 * BLOCK) :
    TextLibrary.parse lib.bytes = .ok { lib with modules := lib.sortedModules.map cut } := by
  have hn := keyOk_keys h
  obtain ⟨lhd, head, hkind, hnindex, hsanity, hmajor, hsize, hver, hcre, hupd, rfl, hfile⟩ := bytes_eq hn
  generalize lib.bytes = file at hfile hlt
  obtain ⟨hread, ⟨z, hdrop⟩, hhead⟩ := header_block hfile (by simp [Idd.length_bytes])
  have hoff : ∀ r ∈ lib.rfas, r.2 ≠ RFA_INDEX := layOut_offset _ _
  have hnlen : (index lib.keys lib.rfas 2).1.length = indexBlocks lib.keys * BLOCK := length_index hn hoff
  generalize padTo BLOCK (lhd.bytes ++ _) = head at hfile hhead
  have hfile₂ := hfile
  rw [← append_assoc, ← append_nil (layOut _ _ _).2] at hfile₂
  obtain ⟨seen, hnames, -⟩ := entries_of_append hn hoff hfile (by rw [hhead]; rfl) (by omega) hlt
    (show ∀ n ∈ ([] : List (BitVec 32)), n.toNat < 2 by simp)
  obtain ⟨hmodules, hlen⟩ := readModules_of_append
    (fun m hm => h.lines m (lib.perm_sortedModules.mem_iff.1 hm)) hlt hfile₂
    (by rw [length_append, hhead, hnlen]; simp only [BLOCK]; omega) (by omega)
  rw [map_nameKeys (by rw [length_map]; exact hlen.symm)] at hnames
  have husz : (BitVec.ofNat 8 lib.kind.mhdusz).toNat = lib.kind.mhdusz := by cases lib.kind <;> rfl
  rw [parse]
  refine ok_bind hread ?_
  rw [hkind, hnindex, hsanity, hmajor, hsize, fromLbrType_lbrType, hdrop, husz]
  simp only [Option.filter_some, and_self, decide_true, if_true, ne_eq, not_true_eq_false, if_false]
  refine ok_bind ((Idd.reads _).value z) (ok_bind hnames (ok_bind hmodules ?_))
  rw [hver, hcre, hupd, fromAscic_ascic h.creator]
  rfl

theorem cut_eq_self_iff {m : TextModule} : cut m = m ↔ ∀ l ∈ m.lines, l.bytes ≠ EOT := by
  have h : cut m = m ↔ m.lines.takeWhile (·.bytes ≠ EOT) = m.lines := by
    rw [cut, TextModule.mk.injEq]
    simp
  rw [h, takeWhile_eq_self_iff]
  simp

end file

/-- **Text libraries are read back** with modules sorted, exactly if no line is the
    record that ends a module. -/
theorem parse_sorted_iff {lib : TextLibrary} (h : lib.WellFormed) : ∃ file, lib.write = some file ∧
    (file.length < 2 ^ 32 * BLOCK →
      (TextLibrary.parse file = .ok lib.sorted ↔ ∀ m ∈ lib.modules, ∀ l ∈ m.lines, l.bytes ≠ EOT)) := by
  refine ⟨lib.bytes, by rw [write, asserts_of_wellFormed h, if_pos rfl], fun hlt => ?_⟩
  have hcut : ({ lib with modules := lib.sortedModules.map cut } : TextLibrary) = lib.sorted ↔
      ∀ m ∈ lib.sortedModules, cut m = m := by
    rw [sorted, TextLibrary.mk.injEq]
    simp only [true_and]
    simpa using map_inj_left (l := lib.sortedModules) (f := cut) (g := id)
  rw [parse_bytes h hlt, Except.ok.injEq, hcut]
  constructor
  · exact fun hall m hm => cut_eq_self_iff.1 (hall m (lib.perm_sortedModules.mem_iff.2 hm))
  · exact fun hall m hm => cut_eq_self_iff.2 (hall m (lib.perm_sortedModules.mem_iff.1 hm))

/-- Two topics of two lines. -/
def smallHelp : TextLibrary where
  kind := .help
  creator := [0x76]
  created := 1
  updated := 2
  modules := [⟨[0x42], 3, [⟨[0x31, 0x20, 0x42], by decide⟩, ⟨[], by decide⟩]⟩, ⟨[0x41], 4, []⟩]

theorem parse_sorted_iff_small : smallHelp.WellFormed ∧
    ∃ file, smallHelp.write = some file ∧ TextLibrary.parse file = .ok smallHelp.sorted := by
  have h : smallHelp.WellFormed := ⟨by decide, by decide, by decide, by decide, by decide⟩
  obtain ⟨file, hw, hp⟩ := parse_sorted_iff h
  have hfile : some file = some smallHelp.bytes := hw ▸ by decide +kernel
  refine ⟨h, file, hw, (hp ?_).2 (by decide)⟩
  rw [Option.some.inj hfile]
  decide +kernel

/-- A macro of three lines, the second of which is `w`, a null and `w`. -/
def markedMacro : TextLibrary where
  kind := .macro_
  creator := []
  created := 0
  updated := 0
  modules := [⟨[0x4d], 0, [⟨[0x61], by decide⟩, ⟨[0x77, 0, 0x77], by decide⟩, ⟨[0x62], by decide⟩]⟩]

/-- The lines from the marker on are lost, and nothing says so. -/
theorem markedMacro_cut : markedMacro.WellFormed ∧ ∃ file, markedMacro.write = some file ∧
    TextLibrary.parse file =
      .ok { markedMacro with modules := [⟨[0x4d], 0, [⟨[0x61], by decide⟩]⟩] } :=
  ⟨⟨by decide, by decide, by decide, by decide, by decide⟩, markedMacro.bytes, by decide +kernel, by decide +kernel⟩

end TextLibrary

end Olb
