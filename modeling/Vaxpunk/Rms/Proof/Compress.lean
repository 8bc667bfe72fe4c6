/-
  Compression: what is compressed expands to what it was.
-/
import Vaxpunk.Rms.Key

namespace Rms

open List UInt8

variable {data key prev prev' rest out lit : Bytes} {c : UInt8} {i n count fuel front : ℕ}

/-! ## Keys -/

theorem cutRun_spec (key : Bytes) (front : ℕ) : ∀ {n : ℕ}, front < n → n ≤ key.length →
    front < cutRun key front n ∧ cutRun key front n ≤ n ∧
      ∀ j, cutRun key front n - 1 ≤ j → j < n → key[j]? = key[n - 1]?
  | 0, h, _ => by omega
  | n + 1, h, hle => by
    unfold cutRun
    split_ifs with hc
    · obtain ⟨h1, h2, h3⟩ := cutRun_spec key front (n := n) (by omega) (by omega)
      refine ⟨h1, by omega, fun j hj hn => ?_⟩
      rcases Nat.lt_succ_iff_lt_or_eq.1 hn with hn | rfl
      · rw [h3 j hj hn, hc.2]
        rfl
      · rfl
    · refine ⟨h, le_rfl, fun j hj hn => ?_⟩
      rw [show j = n by omega]
      rfl

theorem sharedFront_spec : ∀ {p k : Bytes}, sharedFront p k ≤ p.length ∧ sharedFront p k ≤ k.length ∧
    ∀ n ≤ sharedFront p k, p.take n = k.take n
  | [], k => by simp [sharedFront]
  | a :: as, [] => by simp [sharedFront]
  | a :: as, b :: bs => by
    unfold sharedFront
    split_ifs with h
    · obtain ⟨h1, h2, h3⟩ := sharedFront_spec (p := as) (k := bs)
      refine ⟨by simpa using h1, by simpa using h2, fun n hn => ?_⟩
      cases n with
      | zero => rfl
      | succ n => rw [take_succ_cons, take_succ_cons, h, h3 n (by omega)]
    · simp

theorem expandKey_eq {stored : Bytes} {keysz : ℕ} {last : UInt8} (hf : front ≤ prev.length) (hs : stored.length ≤ 255)
    (hsz : front + stored.length ≤ keysz) (hf' : front ≤ 255) (hlast : stored.getLast? = some last) (rest : Bytes) :
    expandKey (ofNat stored.length :: ofNat front :: (stored ++ rest)) prev keysz =
      .ok (resize keysz last (prev.take front ++ stored), 2 + stored.length) := by
  have h1 : (ofNat stored.length).toNat = stored.length := toNat_ofNat_of_lt' (by simp [size]; omega)
  have h2 : (ofNat front).toNat = front := toNat_ofNat_of_lt' (by simp [size]; omega)
  have hne : stored ≠ [] := by rintro rfl; simp at hlast
  have hpos : 0 < stored.length := length_pos_of_ne_nil hne
  have hget : Trap.get? (ofNat stored.length :: ofNat front :: (stored ++ rest)) 2 (2 + stored.length) =
      some stored := by
    refine Trap.get?_eq_some.2 ⟨by omega, by simp; omega, ?_⟩
    simp
  have hrange : (Trap.range prev 0 front : Trap Unit Bytes) = .ok (prev.take front) :=
    Trap.range_eq_ok.2 (Trap.get?_eq_some.2 ⟨by omega, hf, by simp⟩)
  have hlast' : (prev.take front ++ stored).getLast? = some last := by
    rw [getLast?_append_of_ne_nil _ hne, hlast]
  unfold expandKey
  simp only [getElem?_cons_zero, getElem?_cons_succ, Trap.okOr, bind, Except.bind, h1, h2, hget]
  rw [if_neg (by omega)]
  simp only [hrange, hlast', pure, Except.pure]

/-- **A compressed key** expands to the key, against the key it was compressed
    against. -/
theorem expandKey_compressKey {prev : Option Bytes} (hne : key ≠ []) (hlen : key.length ≤ 255)
    (hp : ∀ p, prev = some p → prev' = p) (rest : Bytes) :
    expandKey (compressKey key prev ++ rest) prev' key.length = .ok (key, (compressKey key prev).length) := by
  have hpos : 0 < key.length := length_pos_of_ne_nil hne
  have hshared : keyFront key prev ≤ prev'.length ∧ prev'.take (keyFront key prev) = key.take (keyFront key prev) := by
    cases prev with
    | none => simp [keyFront]
    | some p =>
      rw [hp p rfl]
      obtain ⟨h1, -, h3⟩ := sharedFront_spec (p := p) (k := key)
      exact ⟨(Nat.min_le_left _ _).trans h1, h3 _ (Nat.min_le_left _ _)⟩
  have hfr : keyFront key prev ≤ key.length - 1 := Nat.min_le_right _ _
  have heq : compressKey key prev = ofNat (cutRun key (keyFront key prev) key.length - keyFront key prev) ::
      ofNat (keyFront key prev) :: (key.drop (keyFront key prev)).take
        (cutRun key (keyFront key prev) key.length - keyFront key prev) := rfl
  rw [heq]
  generalize keyFront key prev = front at *
  obtain ⟨h1, h2, h3⟩ := cutRun_spec key front (n := key.length) (by omega) le_rfl
  generalize cutRun key front key.length = stop at *
  have hst : ((key.drop front).take (stop - front)).length = stop - front := by simp; omega
  -- the last byte stored is the last byte of the key
  have hlast : ((key.drop front).take (stop - front)).getLast? = some (key.getLast hne) := by
    rw [getLast?_eq_getElem?, hst, getElem?_take_of_lt (by omega), getElem?_drop,
      show front + (stop - front - 1) = stop - 1 by omega, h3 _ le_rfl (by omega), ← getLast?_eq_getElem?,
      getLast?_eq_some_getLast hne]
  have hkey := expandKey_eq hshared.1 (by omega) (show _ ≤ key.length by omega) (by omega) hlast rest
  rw [hst] at hkey
  refine hkey.trans ?_
  have hall : resize key.length (key.getLast hne) (prev'.take front ++ (key.drop front).take (stop - front)) = key := by
    have htake : prev'.take front ++ (key.drop front).take (stop - front) = key.take stop := by
      rw [hshared.2, show stop = front + (stop - front) by omega, take_add]
      simp
    rw [htake, resize, take_of_length_le (by simp), length_take, Nat.min_eq_left h2]
    refine ext_getElem? fun j => ?_
    rcases Nat.lt_or_ge j stop with hj | hj
    · rw [getElem?_append_left (by simp; omega), getElem?_take_of_lt hj]
    · rw [getElem?_append_right (by simp; omega), length_take, Nat.min_eq_left h2]
      rcases Nat.lt_or_ge j key.length with hjl | hjl
      · rw [getElem?_replicate_of_lt (by omega), h3 j (by omega) hjl, ← getLast?_eq_getElem?,
          getLast?_eq_some_getLast hne]
      · rw [getElem?_eq_none (by simpa using by omega), getElem?_eq_none hjl]
  rw [hall, length_cons, length_cons, hst, Nat.add_comm 2]

/-! ### Its size -/

theorem cutRun_le (key : Bytes) (front : ℕ) : ∀ n, cutRun key front n ≤ n
  | 0 => le_rfl
  | n + 1 => by
    unfold cutRun
    split_ifs
    · exact (cutRun_le key front n).trans (Nat.le_succ n)
    · exact le_rfl

theorem cutRun_front_le (key : Bytes) {front : ℕ} : ∀ {n : ℕ}, front < n → n ≤ key.length →
    cutRun key front n ≤ front + cutRun key 0 n
  | 0, h, _ => by omega
  | n + 1, h, hle => by
    unfold cutRun
    by_cases heq : key[n - 1]? = key[n]?
    · by_cases hf : front = n
      · subst hf
        rw [if_neg (by omega)]
        split_ifs with h0
        · have := (cutRun_spec key 0 (n := front) (by omega) (by omega)).1
          omega
        · omega
      · rw [if_pos ⟨by omega, heq⟩, if_pos ⟨by omega, heq⟩]
        exact cutRun_front_le key (by omega) (by omega)
    · rw [if_neg (fun hc => heq hc.2), if_neg (fun hc => heq hc.2)]
      omega

theorem length_compressKey (key : Bytes) (prev : Option Bytes) :
    (compressKey key prev).length = 2 + (cutRun key (keyFront key prev) key.length - keyFront key prev) := by
  have hle := cutRun_le key (keyFront key prev) key.length
  simp only [compressKey, length_cons, length_take, length_drop]
  omega

theorem length_compressKey_le (key : Bytes) (prev : Option Bytes) : (compressKey key prev).length ≤ 2 + key.length := by
  have hle := cutRun_le key (keyFront key prev) key.length
  rw [length_compressKey]
  omega

theorem length_compressKey_none {prev : Option Bytes} (hne : key ≠ []) :
    (compressKey key prev).length ≤ (compressKey key none).length := by
  have hpos : 0 < key.length := length_pos_of_ne_nil hne
  have hfront : keyFront key prev ≤ key.length - 1 := Nat.min_le_right _ _
  have hnone : keyFront key none = 0 := Nat.zero_min _
  rw [length_compressKey, length_compressKey, hnone]
  have := cutRun_front_le key (show keyFront key prev < key.length by omega) le_rfl
  omega

/-! ## Records -/

@[simp] theorem length_leBytes (w v : ℕ) : (leBytes w v).length = w := Field.length_bytes _ _ _

theorem uint_leBytes (w v : ℕ) : uint (leBytes w v) = v % 2 ^ (8 * w) := by
  rw [uint, leBytes, Field.ofBytes_bytes, Field.get, BitVec.toNat_ofNat, Nat.mul_zero, Nat.shiftRight_zero, Nat.mod_mod]

theorem leBytes_two (v : ℕ) : ∃ lo hi, leBytes 2 v = [lo, hi] :=
  length_eq_two.1 (length_leBytes 2 v)

theorem expandSegment_eq (hl : lit.length < 2 ^ 16) (hc : count ≤ 255)
    (hlast : count = 0 ∨ lit.getLast? = some c) (hmax : out.length + lit.length + count ≤ MAX_RECORD) (rest : Bytes) :
    expandSegment (segment lit count ++ rest) out = .ok (rest, out ++ lit ++ List.replicate count c) := by
  obtain ⟨lo, hi, hle⟩ := leBytes_two lit.length
  have hlen : uint [lo, hi] = lit.length := by rw [← hle, uint_leBytes, Nat.mod_eq_of_lt hl]
  have hcount : (ofNat count).toNat = count := toNat_ofNat_of_lt' (by simp [size]; omega)
  have hseg : segment lit count ++ rest = lo :: hi :: (lit ++ ofNat count :: rest) := by
    simp [segment, hle]
  have hget : Trap.get? (lo :: hi :: (lit ++ ofNat count :: rest)) 2 (2 + lit.length) = some lit :=
    Trap.get?_eq_some.2 ⟨by omega, by simp; omega, by simp⟩
  have hcnt : (lo :: hi :: (lit ++ ofNat count :: rest))[2 + lit.length]? = some (ofNat count) := by
    rw [Nat.add_comm, getElem?_cons_succ, getElem?_cons_succ, getElem?_append_right le_rfl]
    simp
  have hmore : repeats lit (ofNat count) = .ok (replicate count c) := by
    unfold repeats
    rcases Nat.eq_zero_or_pos count with rfl | hpos
    · rfl
    · rw [if_pos (by rw [gt_iff_lt, lt_iff_toNat_lt, hcount]; exact hpos), hlast.resolve_left hpos.ne', hcount]
      rfl
  have hrest : (Trap.range (lo :: hi :: (lit ++ ofNat count :: rest)) (3 + lit.length)
      (lo :: hi :: (lit ++ ofNat count :: rest)).length : Trap Unit Bytes) = .ok rest := by
    refine Trap.range_eq_ok.2 (Trap.get?_eq_some.2 ⟨by simp; omega, le_rfl, ?_⟩)
    rw [show 3 + lit.length = (lit.length + 1) + 1 + 1 by omega, drop_succ_cons, drop_succ_cons,
      drop_append, drop_of_length_le (by omega), nil_append,
      show lit.length + 1 - lit.length = 1 by omega, drop_succ_cons, drop_zero, take_of_length_le]
    simp
    omega
  rw [hseg]
  unfold expandSegment
  simp only [getElem?_cons_succ, getElem?_cons_zero, Trap.okOr, bind, Except.bind, hlen, hget, hcnt, hmore]
  rw [if_neg (by simp only [length_append, length_replicate]; omega), hrest]
  rfl

/-- `b` expands after `out` to `data`, with fuel for its bytes. -/
def Expands (b out data : Bytes) : Prop :=
  ∀ fuel, b.length ≤ fuel → expandSegments fuel b out = .ok data

theorem Expands.nil (data : Bytes) : Expands [] data data := by
  intro fuel _
  cases fuel <;> rfl

theorem Expands.segment (hl : lit.length < 2 ^ 16) (hc : count ≤ 255)
    (hlast : count = 0 ∨ lit.getLast? = some c) (hmax : out.length + lit.length + count ≤ MAX_RECORD)
    (hrest : Expands rest (out ++ lit ++ List.replicate count c) data) :
    Expands (segment lit count ++ rest) out data := by
  intro fuel hfuel
  have hone := expandSegment_eq hl hc hlast hmax rest
  have hlen : (Rms.segment lit count ++ rest).length = lit.length + 3 + rest.length := by
    simp [Rms.segment, length_leBytes]
    omega
  obtain ⟨fuel, rfl⟩ : ∃ n, fuel = n + 1 := ⟨fuel - 1, by omega⟩
  cases hb : Rms.segment lit count ++ rest with
  | nil => rw [hb, length_nil] at hlen; omega
  | cons b0 bs =>
    rw [hb] at hone
    rw [expandSegments, hone]
    exact hrest fuel (by omega)

theorem expands_runSegments (hdata : data.length ≤ MAX_RECORD) : ∀ {fuel left start i : ℕ}, left ≤ fuel →
    start ≤ i → i + left ≤ data.length → (data.drop i).take left = List.replicate left c → (left = 0 → start = i) →
    Expands rest (data.take (i + left)) data →
    Expands (runSegments data fuel left start i ++ rest) (data.take start) data := by
  intro fuel
  induction fuel with
  | zero =>
    intro left start i hf _ _ _ h0 hrest
    obtain rfl : left = 0 := by omega
    rw [h0 rfl]
    exact hrest
  | succ fuel ih =>
    intro left start i hf hs hi hrun h0 hrest
    unfold runSegments
    split_ifs with hleft
    swap
    · obtain rfl : left = 0 := by omega
      rw [h0 rfl]
      exact hrest
    have hat : ∀ j < left, data[i + j]? = some c := by
      intro j hj
      rw [← getElem?_drop, ← getElem?_take_of_lt hj, hrun, getElem?_replicate_of_lt hj]
    generalize hcount : min (left - 1) 255 = count
    have hlit : ((data.drop start).take (i + 1 - start)).length = i + 1 - start := by
      simp only [length_take, length_drop]
      omega
    have hout : data.take start ++ (data.drop start).take (i + 1 - start) = data.take (i + 1) := by
      rw [show i + 1 = start + (i + 1 - start) by omega, take_add]
      simp
    have hmore : data.take (i + 1) ++ replicate count c = data.take (i + 1 + count) := by
      rw [take_add (i := i + 1)]
      congr 1
      refine (ext_getElem? fun j => ?_).symm
      rcases Nat.lt_or_ge j count with hj | hj
      · rw [getElem?_take_of_lt hj, getElem?_drop, getElem?_replicate_of_lt hj, Nat.add_assoc,
          hat _ (by omega)]
      · rw [getElem?_eq_none (by simp; omega), getElem?_eq_none (by simpa using hj)]
    rw [append_assoc]
    refine Expands.segment (c := c) (by unfold MAX_RECORD at hdata; omega) (by omega) (.inr ?_) ?_ ?_
    · rw [getLast?_eq_getElem?, hlit, getElem?_take_of_lt (by omega), getElem?_drop,
        show start + (i + 1 - start - 1) = i + 0 by omega, hat 0 hleft]
    · rw [length_take, hlit]
      omega
    · rw [hout, hmore]
      refine ih (by omega) le_rfl (by omega) ?_ (fun _ => rfl) ?_
      · refine ext_getElem? fun j => ?_
        rcases Nat.lt_or_ge j (left - (1 + count)) with hj | hj
        · rw [getElem?_take_of_lt hj, getElem?_drop, getElem?_replicate_of_lt hj,
            show i + 1 + count + j = i + (1 + count + j) by omega, hat _ (by omega)]
        · rw [getElem?_eq_none (by simp; omega), getElem?_eq_none (by simpa using hj)]
      · rwa [show i + 1 + count + (left - (1 + count)) = i + left by omega]

theorem expands_compressFrom (hdata : data.length ≤ MAX_RECORD) : ∀ {fuel litStart i : ℕ}, litStart ≤ i →
    i ≤ data.length → data.length - i < fuel →
    Expands (compressFrom data fuel litStart i) (data.take litStart) data := by
  intro fuel
  induction fuel with
  | zero => intro _ _ _ _ h; omega
  | succ fuel ih =>
    intro litStart i hl hi hf
    unfold compressFrom
    cases hd : data.drop i with
    | nil =>
      obtain rfl : i = data.length := by
        have := congrArg length hd
        simp only [length_drop, length_nil] at this
        omega
      simp only
      split_ifs with hlt
      · rw [← append_nil (segment _ _)]
        refine Expands.segment (c := 0) ?_ (by omega) (.inl rfl) ?_ ?_
        · unfold MAX_RECORD at hdata
          rw [length_drop]
          omega
        · rw [length_drop, length_take]
          omega
        · rw [take_append_drop, replicate_zero, append_nil]
          exact Expands.nil data
      · rw [take_of_length_le (by omega)]
        exact Expands.nil data
    | cons c rest =>
      simp only
      generalize hrun : ((c :: rest).takeWhile (· == c)).length = run
      have hpre : (c :: rest).takeWhile (· == c) <+: data.drop i := hd ▸ takeWhile_prefix _
      have hpos : 0 < run := by
        rw [← hrun, takeWhile_cons_of_pos (by simp)]
        simp
      have hle : i + run ≤ data.length := by
        have := hpre.length_le
        rw [hrun, length_drop] at this
        omega
      split_ifs with hlong
      · refine expands_runSegments (c := c) hdata le_rfl hl hle ?_ (by omega) (ih le_rfl hle (by omega))
        rw [← hrun, ← prefix_iff_eq_take.1 hpre]
        exact eq_replicate_iff.2 ⟨rfl, fun b hb => by simpa using mem_takeWhile_imp hb⟩
      · exact ih (by omega) hle (by omega)

/-- **Compressed data** expands to the data, no longer than a record can be. -/
theorem expandSegments_compressSegments (hdata : data.length ≤ MAX_RECORD) :
    Expands (compressSegments data) [] data := by
  unfold compressSegments
  split_ifs with h8 h0
  · rw [← append_nil (segment _ _)]
    refine Expands.segment (c := 0) (by omega) (by omega) (.inl rfl) (by simpa using hdata) ?_
    simpa using Expands.nil data
  · obtain rfl : data = [] := eq_nil_of_length_eq_zero (by omega)
    exact Expands.nil []
  · exact expands_compressFrom hdata le_rfl (by omega) (by omega)

theorem length_expandSegment {r : Bytes × Bytes} (h : expandSegment rest out = .ok r) : r.2.length ≤ MAX_RECORD := by
  simp only [expandSegment, Trap.bind_ok] at h
  obtain ⟨b0, -, b1, -, lit, -, count, -, more, -, h⟩ := h
  split_ifs at h with hmax
  · cases h
  · obtain ⟨rest, -, h⟩ := Trap.bind_ok.1 h
    cases h
    exact Nat.le_of_not_lt hmax

theorem length_expandSegments : ∀ {fuel : ℕ} {b out data : Bytes}, out.length ≤ MAX_RECORD →
    expandSegments fuel b out = .ok data → data.length ≤ MAX_RECORD := by
  intro fuel
  induction fuel with
  | zero =>
    intro b out data ho h
    cases b with
    | nil => cases h; exact ho
    | cons _ _ => cases h
  | succ fuel ih =>
    intro b out data ho h
    cases b with
    | nil => cases h; exact ho
    | cons b0 bs =>
      rw [expandSegments] at h
      cases he : expandSegment (b0 :: bs) out with
      | error e => rw [he] at h; cases h
      | ok r =>
        rw [he] at h
        exact ih (length_expandSegment he) h

end Rms
