/-
  The index B-trees of a library file: what `index` builds is walked back.

  * `Shows vs first h e keys blocks`: the entry `e` stands for the keys `keys`, `h`
    levels of nodes below it, in the nodes `blocks` of those built.
  * `buildLevels_spec`: the last node built shows all keys.
  * `walk_spec`: walking a node of a file gives the keys it shows.
-/
import Vaxpunk.Lib.Pack
import Vaxpunk.Obj.LibraryFile
import Vaxpunk.Obj.Proof.File

namespace Olb

open Codec Obj Pack List Olb.Entry

variable {α : Type} {start first n : ℕ} {vs : List (List Byte × Name)} {e : Entry}
    {nodes : List Node} {file A C : List Byte}

/-! ## Nodes and entries -/

theorem Entry.length_bytes (e : Entry) : e.bytes.length = e.size := by
  simp only [bytes, size, putName, length_append, length_put]; omega

theorem length_entries (es : List Entry) : (es.flatMap bytes).length = (es.map size).sum := by
  simp only [length_flatMap, length_bytes]

/-- What matters of a node: its entries and its last key. -/
def Node.view (n : Node) : List Byte × Name := (n.entries, n.last)

def groupView (g : List Entry) : List Byte × Name :=
  (g.flatMap bytes, (g.getLast?.map key).getD [])

/-- `addEntry`, but for the parents. -/
def addView (start : ℕ) (vs : List (List Byte × Name)) (e : Entry) : List (List Byte × Name) :=
  let vs := if vs.length = start ∨ (vs.getLast?.map (·.1.length)).getD 0 + e.size > INDEX_SPACE then
      vs ++ [([], e.key)]
    else vs
  vs.modify (vs.length - 1) fun v => (v.1 ++ e.bytes, e.key)

theorem map_modify_of_comp {β : Type} {f : α → α} {f' : β → β} {g : α → β} (h : ∀ a, g (f a) = f' (g a)) :
    ∀ (l : List α) (i : ℕ), (l.modify i f).map g = (l.map g).modify i f' := by
  intro l i
  refine ext_getElem? fun j => ?_
  simp only [getElem?_map, getElem?_modify]
  split_ifs <;> cases l[j]? <;> simp [h]

theorem view_addEntry (first start : ℕ) (nodes : List Node) (e : Entry) :
    (addEntry first start nodes e).map Node.view = addView start (nodes.map Node.view) e := by
  have hparent : ∀ (l : List Node) (i : ℕ) (p : BitVec 32),
      (l.modify i fun n => { n with parent := p }).map Node.view = l.map Node.view := by
    intro l i p
    have hid : ∀ n : Node, ({ n with parent := p } : Node).view = id n.view := fun _ => rfl
    rw [map_modify_of_comp hid]
    simp
  have hlast : ((nodes.map Node.view).getLast?.map fun v => v.1.length) =
      nodes.getLast?.map fun n => n.entries.length := by
    rw [getLast?_map, Option.map_map]
    rfl
  -- the node the entry goes into, without the parent of the child
  have hbody : ∀ l : List Node, (l.modify (l.length - 1) fun n =>
      { n with entries := n.entries ++ e.bytes, last := e.key }).map Node.view =
      (l.map Node.view).modify ((l.map Node.view).length - 1) fun v => (v.1 ++ e.bytes, e.key) := by
    intro l
    rw [length_map]
    exact map_modify_of_comp (by intro a; rfl) l _
  simp only [addEntry, addView, hlast, length_map]
  cases e.child with
  | none =>
    simp only
    rw [hbody]
    split_ifs <;> simp [Node.view]
  | some c =>
    simp only
    rw [hparent, hbody]
    split_ifs <;> simp [Node.view]

theorem view_foldl (first start : ℕ) : ∀ (level : List Entry) (nodes : List Node),
    (level.foldl (addEntry first start) nodes).map Node.view =
      level.foldl (addView start) (nodes.map Node.view)
  | [], _ => rfl
  | e :: level, nodes => by
    rw [foldl_cons, foldl_cons, view_foldl first start level, view_addEntry]

theorem modify_length_append (f : α → α) (a : α) : ∀ l : List α,
    (l ++ [a]).modify l.length f = l ++ [f a]
  | [] => rfl
  | b :: l => by
    rw [cons_append, length_cons, modify_succ_cons, modify_length_append f a l]
    rfl

theorem addView_new (h : vs.length = start ∨ (vs.getLast?.map (·.1.length)).getD 0 + e.size > INDEX_SPACE) :
    addView start vs e = vs ++ [groupView [e]] := by
  simp only [addView]
  rw [if_pos h, length_append, length_singleton, Nat.add_sub_cancel, modify_length_append]
  simp [groupView]

theorem addView_last {v : List Byte × Name} (hs : start ≤ vs.length) (h : v.1.length + e.size ≤ INDEX_SPACE) :
    addView start (vs ++ [v]) e = vs ++ [(v.1 ++ e.bytes, e.key)] := by
  have hn : ¬((vs ++ [v]).length = start ∨
      ((vs ++ [v]).getLast?.map (·.1.length)).getD 0 + e.size > INDEX_SPACE) := by
    simp only [length_append, length_singleton, getLast?_append, getLast?_singleton,
      Option.some_or, Option.map_some, Option.getD_some]
    omega
  simp only [addView]
  rw [if_neg hn, length_append, length_singleton, Nat.add_sub_cancel, modify_length_append]

theorem foldl_addView_from : ∀ (level cur : List Entry) (vs : List (List Byte × Name)),
    cur ≠ [] → start ≤ vs.length →
    level.foldl (addView start) (vs ++ [groupView cur]) =
      vs ++ (packFrom size INDEX_SPACE cur (cur.map size).sum level).map groupView
  | [], cur, vs, _, _ => rfl
  | e :: level, cur, vs, hc, hs => by
    rw [foldl_cons, packFrom]
    have hlen : (groupView cur).1.length = (cur.map size).sum := length_entries cur
    split_ifs with h
    · rw [addView_new (.inr (by simpa [hlen] using h)),
        foldl_addView_from level [e] (vs ++ [groupView cur]) (by simp) (by simp; omega)]
      simp
    · rw [addView_last hs (by rw [hlen]; omega)]
      have hg : ((groupView cur).1 ++ e.bytes, e.key) = groupView (cur ++ [e]) := by
        simp [groupView]
      rw [hg, foldl_addView_from level _ vs (by simp) hs]
      simp

/-- **The nodes of a level**: the entries packed, after the nodes there are. -/
theorem foldl_addEntry (first : ℕ) (nodes : List Node) (level : List Entry) :
    (level.foldl (addEntry first nodes.length) nodes).map Node.view =
      nodes.map Node.view ++ (pack size INDEX_SPACE level).map groupView := by
  rw [view_foldl]
  cases level with
  | nil => simp [pack]
  | cons e level =>
    rw [foldl_cons, addView_new (.inl (by simp)), foldl_addView_from level _ _ (by simp) (by simp)]
    rfl

/-! ## What an entry stands for -/

/-- An entry, the keys it stands for and the nodes they are in. -/
structure Item where
  entry : Entry
  keys : List (Name × Rfa)
  blocks : List ℕ

/-- The entry has `h` levels of nodes below it, among the nodes `vs`, which are
    numbered from `first`. -/
def Shows (vs : List (List Byte × Name)) (first : ℕ) : ℕ → Item → Prop
  | 0, x => x.entry.rfa.2 ≠ RFA_INDEX ∧ x.keys = [(x.entry.key, x.entry.rfa)] ∧ x.blocks = []
  | h + 1, x => ∃ (i : ℕ) (xs : List Item), x.entry.rfa = (BitVec.ofNat 32 (first + i), RFA_INDEX) ∧
      vs[i]?.map Prod.fst = some ((xs.map Item.entry).flatMap bytes) ∧
      ((xs.map Item.entry).map size).sum ≤ INDEX_SPACE ∧
      (∀ y ∈ xs, Shows vs first h y ∧ keyOk y.entry.key = true) ∧
      x.keys = xs.flatMap Item.keys ∧ x.blocks = i :: xs.flatMap Item.blocks

theorem Shows.mono {ws : List (List Byte × Name)} (hp : vs <+: ws) : ∀ {h : ℕ} {x : Item},
    Shows vs first h x → Shows ws first h x
  | 0, _, hx => hx
  | h + 1, _, ⟨i, xs, hr, hv, hs, hxs, hk, hb⟩ => by
    refine ⟨i, xs, hr, ?_, hs, fun y hy => ⟨(hxs y hy).1.mono hp, (hxs y hy).2⟩, hk, hb⟩
    obtain ⟨v, hvi, hvf⟩ := Option.map_eq_some_iff.1 hv
    obtain ⟨us, rfl⟩ := hp
    rw [List.getElem?_append_left (List.getElem?_eq_some_iff.1 hvi).1, hvi]
    exact congrArg some hvf

/-- A level: its entries, in different nodes. -/
structure Stage (vs : List (List Byte × Name)) (first h : ℕ) (xs : List Item) : Prop where
  shows : ∀ x ∈ xs, Shows vs first h x
  keyOk : ∀ x ∈ xs, keyOk x.entry.key = true
  nodup : (xs.flatMap Item.blocks).Nodup
  lt : ∀ b ∈ xs.flatMap Item.blocks, b < vs.length

/-- A level's entries by the nodes they go into. -/
abbrev groups (xs : List Item) : List (List Item) := pack (size ∘ Item.entry) INDEX_SPACE xs

/-- The entries above groups of entries, whose nodes are numbered from `n`. -/
def above (first : ℕ) : ℕ → List (List Item) → List Item
  | _, [] => []
  | n, g :: gs =>
    ⟨⟨(BitVec.ofNat 32 (first + n), RFA_INDEX), ((g.map Item.entry).getLast?.map key).getD [], some n⟩,
      g.flatMap Item.keys, n :: g.flatMap Item.blocks⟩ :: above first (n + 1) gs

theorem length_above (first : ℕ) : ∀ (gs : List (List Item)) (n : ℕ), (above first n gs).length = gs.length
  | [], _ => rfl
  | g :: gs, n => by rw [above, length_cons, length_above first gs, length_cons]

theorem keys_above (first : ℕ) : ∀ (gs : List (List Item)) (n : ℕ),
    (above first n gs).flatMap Item.keys = gs.flatten.flatMap Item.keys
  | [], _ => rfl
  | g :: gs, n => by
    rw [above, flatMap_cons, keys_above first gs, flatten_cons, flatMap_append]

theorem mem_blocks_above (first : ℕ) {b : ℕ} : ∀ {gs : List (List Item)} {n : ℕ},
    b ∈ (above first n gs).flatMap Item.blocks ↔
      (n ≤ b ∧ b < n + gs.length) ∨ b ∈ gs.flatten.flatMap Item.blocks
  | [], n => by simp [above]
  | g :: gs, n => by
    rw [above, flatMap_cons, mem_append, mem_blocks_above first, flatten_cons,
      flatMap_append, mem_append, mem_cons, length_cons]
    constructor
    · rintro ((rfl | h) | h | h)
      · exact .inl (by omega)
      · exact .inr (.inl h)
      · exact .inl (by omega)
      · exact .inr (.inr h)
    · rintro (h | h | h)
      · by_cases hb : b = n
        · exact .inl (.inl hb)
        · exact .inr (.inl (by omega))
      · exact .inl (.inr h)
      · exact .inr (.inr h)

theorem nodup_blocks_above (first : ℕ) : ∀ {gs : List (List Item)} {n : ℕ},
    (gs.flatten.flatMap Item.blocks).Nodup → (∀ b ∈ gs.flatten.flatMap Item.blocks, b < n) →
    ((above first n gs).flatMap Item.blocks).Nodup
  | [], _, _, _ => nodup_nil
  | g :: gs, n, hn, hlt => by
    rw [flatten_cons, flatMap_append] at hn hlt
    obtain ⟨hg, hgs, hdis⟩ := nodup_append'.1 hn
    obtain ⟨hltg, hltgs⟩ := forall_mem_append.1 hlt
    rw [above, flatMap_cons]
    refine nodup_append'.2 ⟨nodup_cons.2 ⟨fun h => ?_, hg⟩,
      nodup_blocks_above first hgs fun b hb => (hltgs b hb).trans n.lt_succ_self, ?_⟩
    · exact absurd (hltg n h) (lt_irrefl n)
    · intro b hb hb'
      rw [mem_blocks_above] at hb'
      rcases mem_cons.1 hb with rfl | hb
      · rcases hb' with h | h
        · omega
        · exact absurd (hltgs _ h) (lt_irrefl _)
      · rcases hb' with h | h
        · have := hltg b hb; omega
        · exact hdis hb h

theorem shows_above (vs : List (List Byte × Name)) (first h : ℕ) : ∀ {gs : List (List Item)} {n : ℕ},
    (∀ g ∈ gs, ∀ y ∈ g, Shows vs first h y ∧ keyOk y.entry.key = true) →
    (∀ g ∈ gs, ((g.map Item.entry).map size).sum ≤ INDEX_SPACE ∧ g ≠ []) →
    (∀ j g, gs[j]? = some g → vs[n + j]? = some (groupView (g.map Item.entry))) →
    ∀ x ∈ above first n gs, Shows vs first (h + 1) x ∧ keyOk x.entry.key = true
  | [], _, _, _, _ => by simp [above]
  | g :: gs, n, hshow, hsize, hat => by
    obtain ⟨hg, hgs⟩ := forall_mem_cons.1 hshow
    obtain ⟨⟨hs, hne⟩, hss⟩ := forall_mem_cons.1 hsize
    rw [above]
    refine forall_mem_cons.2 ⟨⟨⟨n, g, rfl, ?_, hs, hg, rfl, rfl⟩, ?_⟩,
      shows_above vs first h hgs hss fun j g' hj => ?_⟩
    · rw [show vs[n]? = _ from hat 0 g rfl]
      rfl
    · obtain ⟨y, hy⟩ : ∃ y, g.getLast? = some y := ⟨_, getLast?_eq_some_getLast hne⟩
      simp only [getLast?_map, hy, Option.map_some, Option.getD_some]
      exact (hg y (mem_of_getLast? hy)).2
    · rw [Nat.add_assoc, Nat.add_comm 1]
      exact hat (j + 1) g' (by simpa using hj)

theorem size_le_of_keyOk (h : keyOk e.key = true) : e.size ≤ 135 := by
  have hlen : e.key.length ≤ MAX_KEY := of_decide_eq_true ((Bool.and_eq_true _ _ ▸ h).1)
  simp only [MAX_KEY] at hlen
  simp only [size]; omega

theorem Stage.bounds {h : ℕ} {xs g : List Item} (hst : Stage vs first h xs) (hg : g ∈ groups xs) :
    ((g.map Item.entry).map size).sum ≤ INDEX_SPACE ∧ g ≠ [] := by
  rw [map_map]
  refine (pack_bounds (fun x hx => ?_) hg).symm
  have := size_le_of_keyOk (hst.keyOk x hx)
  simp only [INDEX_SPACE, Function.comp_apply]; omega

/-- **One level**: the entries above the groups of a level are a level. -/
theorem Stage.above {h : ℕ} {xs : List Item} (hst : Stage vs first h xs) :
    Stage (vs ++ ((groups xs).map (map Item.entry)).map groupView)
      first (h + 1) (Olb.above first vs.length (groups xs)) := by
  have hflat : (groups xs).flatten = xs := flatten_pack xs
  have hmem : ∀ g ∈ groups xs, ∀ y ∈ g, y ∈ xs := fun g hg y hy => by
    rw [← hflat]; exact mem_flatten.2 ⟨g, hg, hy⟩
  have hall := shows_above
    (vs ++ ((groups xs).map (map Item.entry)).map groupView) first h
    (fun g hg y hy => ⟨(hst.shows y (hmem g hg y hy)).mono (prefix_append _ _),
      hst.keyOk y (hmem g hg y hy)⟩)
    (fun g => hst.bounds)
    (fun j g hj => by
      rw [getElem?_append_right (Nat.le_add_right vs.length j), Nat.add_sub_cancel_left,
        getElem?_map, getElem?_map, hj]
      rfl)
  refine ⟨fun x hx => (hall x hx).1, fun x hx => (hall x hx).2, ?_, fun b hb => ?_⟩
  · exact nodup_blocks_above first (by rw [hflat]; exact hst.nodup) (by rw [hflat]; exact hst.lt)
  · rw [mem_blocks_above, hflat] at hb
    rw [length_append, length_map, length_map]
    rcases hb with hb | hb
    · exact hb.2
    · exact (hst.lt b hb).trans_le (Nat.le_add_right _ _)

/-! ## Levels -/

theorem levelAbove_eq {nodes' : List Node} {gs : List (List Entry)}
    (hv : nodes'.map Node.view = nodes.map Node.view ++ gs.map groupView) :
    levelAbove first nodes.length nodes' = (gs.zipIdx nodes.length).map fun g =>
      ⟨(BitVec.ofNat 32 (first + g.2), RFA_INDEX), (g.1.getLast?.map key).getD [], some g.2⟩ := by
  have hlen : nodes'.length = nodes.length + gs.length := by
    simpa using congrArg length hv
  rw [levelAbove, hlen, Nat.add_sub_cancel_left]
  refine ext_getElem? fun j => ?_
  rw [getElem?_map, getElem?_map, getElem?_zipIdx]
  by_cases hj : j < gs.length
  · have hget : (nodes'.map Node.view)[nodes.length + j]? = some (groupView gs[j]) := by
      rw [hv, getElem?_append_right (by simp), length_map, Nat.add_sub_cancel_left,
        getElem?_map, getElem?_eq_getElem hj]
      rfl
    rw [getElem?_map] at hget
    obtain ⟨n, hn, hview⟩ := Option.map_eq_some_iff.1 hget
    have hlast : n.last = _ := congrArg Prod.snd hview
    rw [getElem?_range' hj, getElem?_eq_getElem hj]
    simp only [Option.map_some, Nat.one_mul, hn, hlast, Option.getD_some]
    rfl
  · rw [getElem?_eq_none (by simp; omega), getElem?_eq_none (by omega)]
    rfl

theorem entry_above (first : ℕ) : ∀ (gs : List (List Item)) (n : ℕ), (above first n gs).map Item.entry =
    ((gs.map (map Item.entry)).zipIdx n).map fun g =>
      ⟨(BitVec.ofNat 32 (first + g.2), RFA_INDEX), (g.1.getLast?.map key).getD [], some g.2⟩
  | [], _ => rfl
  | g :: gs, n => by rw [above, map_cons, map_cons, zipIdx_cons, map_cons, entry_above first gs]

section levels
variable {first h : ℕ} {nodes : List Node} {xs : List Item}

theorem view_level (first : ℕ) (nodes : List Node) (xs : List Item) :
    ((xs.map Item.entry).foldl (addEntry first nodes.length) nodes).map Node.view = nodes.map Node.view ++
      ((groups xs).map (map Item.entry)).map groupView := by
  rw [foldl_addEntry, pack_map]

/-- What the last node built stands for. -/
structure Rooted (first h' : ℕ) (keys : List (Name × Rfa)) (nodes : List Node) (root : Item) : Prop where
  shows : Shows (nodes.map Node.view) first (h' + 1) root
  rfa : root.entry.rfa = (BitVec.ofNat 32 (first + nodes.length - 1), RFA_INDEX)
  keys : root.keys = keys
  nodup : root.blocks.Nodup
  lt : ∀ b ∈ root.blocks, b < nodes.length

/-- **Levels up to a single node**: it stands for all keys, and each level has at
    most a third of the nodes of the one before. -/
theorem buildLevels_spec : ∀ {j fuel h : ℕ} {nodes : List Node} {xs : List Item},
    Stage (nodes.map Node.view) first h xs → xs ≠ [] → xs.length ≤ 3 ^ j → j < fuel →
    (∀ n ∈ nodes, n.entries.length ≤ INDEX_SPACE) →
    (∀ n ∈ buildLevels first fuel nodes (xs.map Item.entry), n.entries.length ≤ INDEX_SPACE) ∧
      ∃ h' root, h' ≤ h + j ∧
        Rooted first h' (xs.flatMap Item.keys) (buildLevels first fuel nodes (xs.map Item.entry)) root
  | j, 0, _, _, _, _, _, _, hf, _ => absurd hf (by omega)
  | j, fuel + 1, h, nodes, xs, hst, hne, hlen, hf, hsize => by
    have hview := view_level first nodes xs
    have habove := hst.above
    have hflat : (groups xs).flatten = xs := flatten_pack xs
    have hpack : ((groups xs).length - 1) * 3 + 1 ≤ xs.length :=
      length_pack 135 3 (fun x hx => size_le_of_keyOk (hst.keyOk x hx)) (by simp [INDEX_SPACE]) hne
    have hbounds : ∀ g ∈ groups xs, ((g.map Item.entry).map size).sum ≤ INDEX_SPACE :=
      fun g hg => (hst.bounds hg).1
    have hgne : groups xs ≠ [] := fun h => hne (by rw [← hflat, h]; rfl)
    rw [length_map] at habove
    generalize hgs : groups xs = gs at *
    unfold buildLevels
    simp only
    generalize hN : (xs.map Item.entry).foldl (addEntry first nodes.length) nodes = nodes' at *
    have hlen' : nodes'.length = nodes.length + gs.length := by
      simpa using congrArg length hview
    have hsize' : ∀ n ∈ nodes', n.entries.length ≤ INDEX_SPACE := by
      have : ∀ v ∈ nodes'.map Node.view, v.1.length ≤ INDEX_SPACE := by
        rw [hview]
        refine forall_mem_append.2 ⟨forall_mem_map.2 hsize, forall_mem_map.2 (forall_mem_map.2 fun g hg => ?_)⟩
        exact (length_entries _).trans_le (hbounds g hg)
      exact forall_mem_map.1 this
    have hpos := length_pos_iff.2 hgne
    split_ifs with hone
    · -- a single node: it is the root
      obtain ⟨g, rfl⟩ := length_eq_one_iff.1 (show gs.length = 1 by omega)
      rw [← hview] at habove
      refine ⟨hsize', h, _, Nat.le_add_right _ _, habove.shows _ (mem_singleton.2 rfl), ?_, ?_, ?_, ?_⟩
      · rw [hlen', length_singleton]
        rfl
      · rw [← hflat]
        simp
      · simpa [above] using habove.nodup
      · simpa [above] using habove.lt
    · obtain ⟨j, rfl⟩ : ∃ i, j = i + 1 := by
        refine ⟨j - 1, ?_⟩
        rcases j with _ | j
        · rw [pow_zero] at hlen; omega
        · omega
      rw [levelAbove_eq hview, ← entry_above]
      rw [← hview] at habove
      have hne' : above first nodes.length gs ≠ [] := by
        rw [← length_pos_iff, length_above]; exact hpos
      obtain ⟨h1, h', root, hh, hroot⟩ := buildLevels_spec habove hne'
        (show _ ≤ 3 ^ j by rw [length_above]; rw [pow_succ] at hlen; omega) (show j < fuel by omega) hsize'
      refine ⟨h1, h', root, by omega, ?_⟩
      rwa [keys_above, hflat] at hroot

end levels

/-! ## Index blocks -/

theorem length_padTo (hn : 0 < n) (b : List Byte) :
    (padTo n b).length = (b.length + n - 1) / n * n := by
  have h : b.length ≤ (b.length + n - 1) / n * n := by
    have h1 := Nat.div_add_mod (b.length + n - 1) n
    have h2 := Nat.mod_lt (b.length + n - 1) hn
    rw [Nat.mul_comm] at h1
    omega
  rw [padTo, length_append, length_replicate]
  omega

theorem toNat_vbn (h : n < 2 ^ 32) : (BitVec.ofNat 32 n).toNat = n := by
  rw [BitVec.toNat_ofNat, Nat.mod_eq_of_lt h]

theorem vbn_ne_zero (h0 : 0 < n) (h : n < 2 ^ 32) : BitVec.ofNat 32 n ≠ 0 := by
  intro hz
  have hz : (BitVec.ofNat 32 n).toNat = 0 := congrArg BitVec.toNat hz
  rw [toNat_vbn h] at hz
  omega

theorem block_append {B : List Byte} {v : ℕ} (hfile : file = A ++ (B ++ C))
    (hA : A.length = (v - 1) * BLOCK) (hB : B.length = BLOCK) (h0 : 0 < v) (hv : v < 2 ^ 32) :
    block file (BitVec.ofNat 32 v) = .ok B := by
  rw [block, if_neg (vbn_ne_zero h0 hv)]
  simp only
  rw [toNat_vbn hv, if_pos, hfile, ← hA, drop_left, ← hB, take_left]
  rw [hfile, length_append, length_append]
  omega

theorem length_flatMap_blocks {f : α → List Byte} : ∀ {xs : List α},
    (∀ x ∈ xs, (f x).length = BLOCK) → (xs.flatMap f).length = xs.length * BLOCK
  | [], _ => (Nat.zero_mul _).symm
  | x :: xs, h => by
    obtain ⟨hx, hxs⟩ := forall_mem_cons.1 h
    rw [flatMap_cons, length_append, length_flatMap_blocks hxs, hx, length_cons, Nat.succ_mul]
    omega

theorem block_flatMap {f : α → List Byte} {xs : List α} {v i : ℕ} {x : α}
    (hfile : file = A ++ (xs.flatMap f ++ C)) (hA : A.length = (v - 1) * BLOCK)
    (hxs : ∀ x ∈ xs, (f x).length = BLOCK) (h0 : 0 < v) (hv : v + i < 2 ^ 32) (hx : xs[i]? = some x) :
    block file (BitVec.ofNat 32 (v + i)) = .ok (f x) := by
  obtain ⟨hi, rfl⟩ := List.getElem?_eq_some_iff.1 hx
  have hsplit : xs.flatMap f = (xs.take i).flatMap f ++ (f xs[i] ++ (xs.drop (i + 1)).flatMap f) := by
    rw [← flatMap_cons, cons_getElem_drop_succ, ← flatMap_append, take_append_drop]
  refine block_append (A := A ++ (xs.take i).flatMap f) (C := (xs.drop (i + 1)).flatMap f ++ C) ?_ ?_
    (hxs _ (getElem_mem hi)) (by omega) hv
  · rw [hfile, hsplit]
    simp only [append_assoc]
  · rw [length_append, hA, length_flatMap_blocks fun y hy => hxs y (mem_of_mem_take hy),
      length_take, min_eq_left hi.le, ← Nat.add_mul]
    congr 1
    omega

namespace Node

variable {n : Node}

theorem length_bytes (h : n.entries.length ≤ INDEX_SPACE) : n.bytes.length = BLOCK := by
  rw [bytes, length_padTo (by simp [BLOCK])]
  simp only [length_append, length_put, length_replicate, INDEX_KEYS, BLOCK, INDEX_SPACE] at h ⊢
  omega

theorem used_bytes (h : n.entries.length ≤ INDEX_SPACE) : Words.ofLe (n.bytes.take 2) = n.entries.length := by
  have htake : n.bytes.take 2 = put (BitVec.ofNat 16 n.entries.length) := by
    rw [bytes, padTo, append_assoc]
    exact take_left' (length_put _)
  rw [htake, put, Words.ofLe_le, BitVec.toNat_ofNat]
  simp only [INDEX_SPACE] at h
  omega

theorem entries_bytes : (n.bytes.drop INDEX_KEYS).take n.entries.length = n.entries := by
  obtain ⟨z, hz⟩ : ∃ z, n.bytes = (put (BitVec.ofNat 16 n.entries.length) ++ (put n.parent ++
      replicate (INDEX_KEYS - 6) 0)) ++ (n.entries ++ z) := by
    rw [bytes, padTo]
    simp only [append_assoc]
    exact ⟨_, rfl⟩
  rw [hz, drop_left' (by simp [INDEX_KEYS]), take_left]

end Node

/-- The number of a node's block. -/
abbrev number (first i : ℕ) : BitVec 32 := BitVec.ofNat 32 (first + i)

/-- The blocks of a file from block `first` on hold the nodes. -/
structure HasNodes (file : List Byte) (first : ℕ) (nodes : List Node) : Prop where
  block : ∀ i n, nodes[i]? = some n → block file (number first i) = .ok n.bytes
  size : ∀ n ∈ nodes, n.entries.length ≤ INDEX_SPACE
  lt : first + nodes.length ≤ 2 ^ 32

theorem HasNodes.of_append (hfile : file = A ++ (nodes.flatMap Node.bytes ++ C))
    (hA : A.length = (first - 1) * BLOCK) (h0 : 0 < first)
    (hsize : ∀ n ∈ nodes, n.entries.length ≤ INDEX_SPACE) (hlt : first + nodes.length ≤ 2 ^ 32) :
    HasNodes file first nodes := by
  refine ⟨fun i n hi => ?_, hsize, hlt⟩
  have := (List.getElem?_eq_some_iff.1 hi).1
  exact block_flatMap hfile hA (fun n hn => Node.length_bytes (hsize n hn)) h0 (by omega) hi

theorem number_inj {i j m : ℕ} (hm : first + m ≤ 2 ^ 32) (hi : i < m) (hj : j < m)
    (h : number first i = number first j) : i = j := by
  have := congrArg BitVec.toNat h
  rw [BitVec.toNat_ofNat, BitVec.toNat_ofNat, Nat.mod_eq_of_lt (by omega), Nat.mod_eq_of_lt (by omega)] at this
  omega

/-! ## Walking -/

theorem reads_entry (h : keyOk e.key = true) : Reads readEntry e.bytes (e.rfa, e.key) := by
  have hlen : e.key.length ≤ MAX_KEY := of_decide_eq_true ((Bool.and_eq_true _ _ ▸ h).1)
  have hkey : (BitVec.ofNat 8 e.key.length).toNat = e.key.length := by
    rw [BitVec.toNat_ofNat]
    simp only [MAX_KEY] at hlen
    omega
  refine (reads_u32 e.rfa.1).bind ((reads_u16 e.rfa.2).bind ((reads_u8 _).bind ?_))
  rw [hkey]
  exact (reads_take _ e.key).bind_pure (Reads.pure (e.rfa, e.key))

theorem walkEntries_cons {down : BitVec 32 → Found → Except Error Found} {bytes : List Byte}
    {fuel : ℕ} {found : Found} (h : keyOk e.key = true) :
    walkEntries down (fuel + 1) (e.bytes ++ bytes) found =
      if e.rfa.2 = RFA_INDEX then do
        let found ← down e.rfa.1 found
        walkEntries down fuel bytes found
      else walkEntries down fuel bytes (found.1, found.2 ++ [(e.key, e.rfa)]) := by
  have hne : e.bytes ++ bytes ≠ [] := fun he => by
    have := congrArg length he
    rw [length_append, length_bytes, size] at this
    simp at this
  obtain ⟨c, cs, hc⟩ := exists_cons_of_ne_nil hne
  have hread := reads_entry h bytes
  rw [hc, walkEntries, ← hc, hread]
  have hascii : isAscii e.key = true := (Bool.and_eq_true _ _ ▸ h).2
  simp only [hascii, if_true]

section walk
variable {file : List Byte} {first : ℕ} {nodes : List Node}

/-- What a walk adds to what has been seen and found. -/
def Walked (first : ℕ) (blocks : List ℕ) (keys : List (Name × Rfa)) (found : Found)
    (r : Except Error Found) : Prop :=
  ∃ seen, r = .ok (seen, found.2 ++ keys) ∧ ∀ n, n ∈ seen ↔ n ∈ found.1 ∨ ∃ b ∈ blocks, n = number first b

/-- The blocks have not been seen. -/
def Unseen (first m : ℕ) (blocks : List ℕ) (found : Found) : Prop :=
  ∀ b ∈ blocks, b < m ∧ number first b ∉ found.1

theorem walkEntries_spec {h : ℕ} (down : BitVec 32 → Found → Except Error Found)
    (hm : first + nodes.length ≤ 2 ^ 32)
    (hdown : ∀ (x : Item) (found : Found), h ≠ 0 → Shows (nodes.map Node.view) first h x → x.blocks.Nodup →
      Unseen first nodes.length x.blocks found →
      Walked first x.blocks x.keys found (down x.entry.rfa.1 found)) :
    ∀ (xs : List Item) (fuel : ℕ) (found : Found),
      (∀ y ∈ xs, Shows (nodes.map Node.view) first h y ∧ keyOk y.entry.key = true) →
      (xs.flatMap Item.blocks).Nodup → Unseen first nodes.length (xs.flatMap Item.blocks) found →
      ((xs.map Item.entry).flatMap bytes).length ≤ fuel →
      Walked first (xs.flatMap Item.blocks) (xs.flatMap Item.keys) found
        (walkEntries down fuel ((xs.map Item.entry).flatMap bytes) found)
  | [], fuel, found, _, _, _, _ => by
    refine ⟨found.1, ?_, by simp⟩
    cases fuel <;> simp [walkEntries]
  | x :: xs, fuel, found, hxs, hn, hu, hf => by
    obtain ⟨⟨hx, hkey⟩, hxs⟩ := forall_mem_cons.1 hxs
    rw [flatMap_cons] at hn hu
    obtain ⟨hnx, hnxs, hdis⟩ := nodup_append'.1 hn
    obtain ⟨hux, huxs⟩ := forall_mem_append.1 hu
    rw [map_cons, flatMap_cons, length_append, length_bytes, size] at hf
    obtain ⟨fuel, rfl⟩ : ∃ n, fuel = n + 1 := ⟨fuel - 1, by omega⟩
    simp only [map_cons, flatMap_cons]
    rw [walkEntries_cons hkey]
    cases h with
    | zero =>
      obtain ⟨hr, hk, hb⟩ := hx
      rw [if_neg hr]
      obtain ⟨seen, hw, hs⟩ := walkEntries_spec down hm hdown xs fuel (found.1, found.2 ++ [(x.entry.key, x.entry.rfa)])
        hxs hnxs huxs (by omega)
      refine ⟨seen, ?_, fun n => ?_⟩
      · rw [hw, hk, append_assoc]
      · rw [hs, hb, nil_append]
    | succ h =>
      have hr : x.entry.rfa.2 = RFA_INDEX := by
        obtain ⟨i, ys, hr, -⟩ := hx
        rw [hr]
      rw [if_pos hr]
      obtain ⟨seen, hw, hs⟩ := hdown x found (by omega) hx hnx hux
      -- what was seen below this entry is not what the later ones need
      have huxs' : Unseen first nodes.length (xs.flatMap Item.blocks) (seen, found.2 ++ x.keys) := by
        intro b hb
        refine ⟨(huxs b hb).1, fun hmem => ?_⟩
        rcases (hs _).1 hmem with hmem | ⟨b', hb', he⟩
        · exact (huxs b hb).2 hmem
        · obtain rfl := number_inj hm (huxs b hb).1 (hux b' hb').1 he
          exact hdis hb' hb
      obtain ⟨seen', hw', hs'⟩ := walkEntries_spec down hm hdown xs fuel (seen, found.2 ++ x.keys) hxs hnxs huxs'
        (by omega)
      refine ⟨seen', ?_, fun n => ?_⟩
      · rw [hw]
        change walkEntries down fuel _ _ = _
        rw [hw', append_assoc]
      · rw [hs', hs]
        simp only [mem_append, or_and_right, exists_or, or_assoc]

/-- **Walking a node** gives the keys it stands for, and reads its blocks and those
    below it. -/
theorem walk_spec (hN : HasNodes file first nodes) : ∀ {h left : ℕ} {x : Item} {found : Found},
    Shows (nodes.map Node.view) first (h + 1) x → h < left → x.blocks.Nodup →
    Unseen first nodes.length x.blocks found →
    Walked first x.blocks x.keys found (walk file left x.entry.rfa.1 found)
  | _, 0, _, _, _, hl, _, _ => absurd hl (by omega)
  | h, left + 1, x, (seen, out), ⟨i, xs, hr, hv, hsize, hxs, hk, hb⟩, hl, hn, hu => by
    rw [hb] at hn hu
    obtain ⟨hni, hnxs⟩ := nodup_cons.1 hn
    obtain ⟨⟨hi, hseen⟩, huxs⟩ := forall_mem_cons.1 hu
    rw [getElem?_map] at hv
    obtain ⟨v, hv', hentries⟩ := Option.map_eq_some_iff.1 hv
    obtain ⟨n, hnode, rfl⟩ := Option.map_eq_some_iff.1 hv'
    have hentries : n.entries = (xs.map Item.entry).flatMap bytes := hentries
    have hspace := hN.size n (mem_of_getElem? hnode)
    have hblock := hN.block i n hnode
    have huxs' : Unseen first nodes.length (xs.flatMap Item.blocks) (number first i :: seen, out) := by
      intro b hb'
      refine ⟨(huxs b hb').1, fun hmem => ?_⟩
      rcases mem_cons.1 hmem with he | hmem
      · obtain rfl := number_inj hN.lt (huxs b hb').1 hi he
        exact hni hb'
      · exact (huxs b hb').2 hmem
    obtain ⟨seen', hw, hs⟩ := walkEntries_spec (walk file left) hN.lt
      (fun y found hh hy hny huy => by
        obtain ⟨h', rfl⟩ : ∃ k, h = k + 1 := ⟨h - 1, by omega⟩
        exact walk_spec hN hy (by omega) hny huy)
      xs n.entries.length (number first i :: seen, out) hxs hnxs huxs' (by rw [hentries])
    refine ⟨seen', ?_, fun m => ?_⟩
    · rw [hr, hk, walk, if_neg hseen, hblock]
      change (if Words.ofLe (n.bytes.take 2) > INDEX_SPACE then _ else _) = _
      rw [Node.used_bytes hspace, if_neg (by omega), Node.entries_bytes]
      rw [← hentries] at hw
      exact hw
    · rw [hs, hb]
      simp only [mem_cons, exists_eq_or_imp]
      constructor
      · rintro ((h | h) | h)
        exacts [.inr (.inl h), .inl h, .inr (.inr h)]
      · rintro (h | h | h)
        exacts [.inl (.inr h), .inl (.inl h), .inr h]

end walk

theorem keys_levelAbove {nodes' : List Node} {gs : List (List Entry)}
    (hv : nodes'.map Node.view = nodes.map Node.view ++ gs.map groupView) :
    (levelAbove first nodes.length nodes').map key = gs.map fun g => ((g.map key).getLast?).getD [] := by
  have hkey : ∀ g : List Entry, (g.getLast?.map key).getD [] = ((g.map key).getLast?).getD [] :=
    fun g => by rw [getLast?_map]
  rw [levelAbove_eq hv, map_map]
  conv_rhs => rw [← zipIdx_map_fst nodes.length gs, map_map]
  exact map_congr_left fun g _ => hkey g.1

theorem length_buildLevels (first first' : ℕ) : ∀ {fuel : ℕ} {nodes nodes' : List Node} {level level' : List Entry},
    level.map key = level'.map key → nodes.length = nodes'.length →
    (buildLevels first fuel nodes level).length = (buildLevels first' fuel nodes' level').length
  | 0, _, _, _, _, _, hn => hn
  | fuel + 1, nodes, nodes', level, level', hk, hn => by
    have hpack : (pack size INDEX_SPACE level).map (map key) =
        (pack size INDEX_SPACE level').map (map key) := by
      have h : ∀ l : List Entry, pack (fun k : Name => 7 + k.length) INDEX_SPACE (l.map key) =
          (pack size INDEX_SPACE l).map (map key) := pack_map key
      rw [← h, ← h, hk]
    have hcount : (pack size INDEX_SPACE level).length = (pack size INDEX_SPACE level').length := by
      simpa using congrArg length hpack
    have hv := foldl_addEntry first nodes level
    have hv' := foldl_addEntry first' nodes' level'
    have hlen := congrArg length hv
    have hlen' := congrArg length hv'
    simp only [length_map, length_append] at hlen hlen'
    unfold buildLevels
    simp only
    rw [hlen, hlen', hcount, Nat.add_sub_cancel_left, Nat.add_sub_cancel_left]
    split_ifs
    · rw [hlen, hlen', hn, hcount]
    · refine length_buildLevels first first' ?_ (by rw [hlen, hlen', hn, hcount])
      rw [keys_levelAbove hv, keys_levelAbove hv']
      have hlast := congrArg (map fun g : List Name => g.getLast?.getD []) hpack
      rw [map_map, map_map] at hlast
      exact hlast

theorem length_keys_le : ∀ {h : ℕ} {x : Item},
    Shows vs first (h + 1) x → x.keys.length ≤ 71 * x.blocks.length
  | h, x, ⟨i, xs, _, _, hsize, hxs, hk, hb⟩ => by
    rw [hk, hb, length_cons, length_flatMap, length_flatMap]
    cases h with
    | zero =>
      have hone : ∀ y ∈ xs, y.keys.length = 1 := fun y hy => by
        obtain ⟨⟨-, hy, -⟩, -⟩ := hxs y hy
        rw [hy]; rfl
      have hseven : xs.length * 7 ≤ (xs.map (size ∘ Item.entry)).sum := by
        have := card_nsmul_le_sum (xs.map (size ∘ Item.entry)) 7 (by simp [size])
        simpa using this
      rw [map_map] at hsize
      have hlen : (xs.map fun y => y.keys.length).sum = xs.length := by
        rw [map_congr_left hone]; simp
      simp only [INDEX_SPACE] at hsize
      rw [hlen]
      omega
    | succ h =>
      have hle : (xs.map fun y => y.keys.length).sum ≤ (xs.map fun y => 71 * y.blocks.length).sum :=
        sum_le_sum fun y hy => length_keys_le (hxs y hy).1
      rw [sum_map_mul_left] at hle
      omega

/-! ## An index -/

theorem le_pow_pred {k : ℕ} (hk : 0 < k) : k ≤ 3 ^ (k - 1) := by
  obtain ⟨k, rfl⟩ : ∃ n, k = n + 1 := ⟨k - 1, by omega⟩
  rw [Nat.add_sub_cancel]
  exact Nat.lt_pow_self (by omega)

def indexNodes (keys : List (Name × ℕ)) (rfas : List Rfa) (first : ℕ) : List Node :=
  if keys = [] then []
  else buildLevels first keys.length [] (keys.map fun k => ⟨rfas.getD k.2 (0, 0), k.1, none⟩)

section index
variable {keys : List (Name × ℕ)} {rfas : List Rfa} {first : ℕ}

theorem index_blocks : (index keys rfas first).1 = (indexNodes keys rfas first).flatMap Node.bytes := by
  unfold index indexNodes
  split_ifs <;> rfl

theorem length_indexNodes (rfas rfas' : List Rfa) (first first' : ℕ) :
    (indexNodes keys rfas first).length = (indexNodes keys rfas' first').length := by
  unfold indexNodes
  split_ifs
  · rfl
  · exact length_buildLevels first first' (by simp) rfl

def leaves (keys : List (Name × ℕ)) (rfas : List Rfa) : List Item :=
  keys.map fun k => ⟨⟨rfas.getD k.2 (0, 0), k.1, none⟩, [(k.1, rfas.getD k.2 (0, 0))], []⟩

theorem stage_leaves (hk : ∀ k ∈ keys, keyOk k.1 = true) (hr : ∀ r ∈ rfas, r.2 ≠ RFA_INDEX) :
    Stage (([] : List Node).map Node.view) first 0 (leaves keys rfas) := by
  have hblocks : (leaves keys rfas).flatMap Item.blocks = [] := by
    simp [leaves, flatMap_map]
  refine ⟨forall_mem_map.2 fun k _ => ⟨?_, rfl, rfl⟩, forall_mem_map.2 hk, ?_, ?_⟩
  · rcases lt_or_ge k.2 rfas.length with h | h
    · simp only [getD_eq_getElem _ _ h]
      exact hr _ (getElem_mem h)
    · simp only [getD_eq_default _ _ h]
      decide
  · rw [hblocks]; exact nodup_nil
  · rw [hblocks]; simp

theorem rooted_indexNodes (hne : keys ≠ []) (hk : ∀ k ∈ keys, keyOk k.1 = true) (hr : ∀ r ∈ rfas, r.2 ≠ RFA_INDEX) :
    (∀ n ∈ indexNodes keys rfas first, n.entries.length ≤ INDEX_SPACE) ∧
      ((indexNodes keys rfas first).length ≤ 2 ^ 32 → ∃ h root, h ≤ MAX_DEPTH ∧
        Rooted first h (keys.map fun k => (k.1, rfas.getD k.2 (0, 0))) (indexNodes keys rfas first) root) := by
  have hlen : (leaves keys rfas).length = keys.length := length_map _
  have hpos := length_pos_iff.2 hne
  have hkeys : (leaves keys rfas).flatMap Item.keys = keys.map fun k => (k.1, rfas.getD k.2 (0, 0)) := by
    simp only [leaves, flatMap_map]
    exact flatMap_pure_eq_map _ _
  have hnodes : indexNodes keys rfas first = buildLevels first keys.length [] ((leaves keys rfas).map Item.entry) := by
    rw [indexNodes, if_neg hne, leaves, map_map]
    rfl
  have hspec : ∀ j, keys.length ≤ 3 ^ j → j < keys.length →
      (∀ n ∈ indexNodes keys rfas first, n.entries.length ≤ INDEX_SPACE) ∧ ∃ h root, h ≤ 0 + j ∧
        Rooted first h (keys.map fun k => (k.1, rfas.getD k.2 (0, 0))) (indexNodes keys rfas first) root := by
    intro j h1 h2
    rw [hnodes, ← hkeys]
    exact buildLevels_spec (stage_leaves hk hr) (length_pos_iff.1 (by omega)) (by omega) h2 (by simp)
  obtain ⟨hsize, h, root, hh, hroot⟩ := hspec (keys.length - 1) (le_pow_pred hpos) (by omega)
  refine ⟨hsize, fun hfit => ?_⟩
  by_cases hfew : keys.length - 1 ≤ MAX_DEPTH
  · exact ⟨h, root, by omega, hroot⟩
  -- the keys of so many blocks are not too many for the depth allowed
  · have hcount := length_keys_le hroot.shows
    have hblocks : root.blocks.length ≤ (indexNodes keys rfas first).length := by
      have hsub : root.blocks ⊆ range (indexNodes keys rfas first).length :=
        fun b hb => mem_range.2 (hroot.lt b hb)
      simpa using (subperm_of_subset hroot.nodup hsub).length_le
    rw [hroot.keys, length_map] at hcount
    simp only [MAX_DEPTH] at hfew
    obtain ⟨-, h, root, hh, hroot⟩ := hspec MAX_DEPTH (by simp only [MAX_DEPTH]; omega)
      (by simp only [MAX_DEPTH]; omega)
    exact ⟨h, root, by omega, hroot⟩

/-- **An index is read back**: the keys with where they point, in the order they
    were given, and its own blocks. -/
theorem entries_index {seen : List (BitVec 32)} (hk : ∀ k ∈ keys, keyOk k.1 = true)
    (hr : ∀ r ∈ rfas, r.2 ≠ RFA_INDEX) (hfirst : 0 < first) (hN : HasNodes file first (indexNodes keys rfas first))
    (hseen : ∀ i < (indexNodes keys rfas first).length, number first i ∉ seen) :
    ∃ seen', entries file (index keys rfas first).2 seen =
        .ok (seen', keys.map fun k => (k.1, rfas.getD k.2 (0, 0))) ∧
      ∀ n ∈ seen', n ∈ seen ∨ ∃ i < (indexNodes keys rfas first).length, n = number first i := by
  by_cases hne : keys = []
  · subst hne
    exact ⟨seen, rfl, fun n hn => .inl hn⟩
  obtain ⟨h, root, hh, hroot⟩ := (rooted_indexNodes hne hk hr).2
    (show (indexNodes keys rfas first).length ≤ 2 ^ 32 by have := hN.lt; omega)
  have hroot2 : (index keys rfas first).2 = root.entry.rfa.1 := by
    rw [hroot.rfa, index, if_neg hne, indexNodes, if_neg hne]
  have hpos : 0 < (indexNodes keys rfas first).length := by
    obtain ⟨i, xs, -, -, -, -, -, hb⟩ := hroot.shows
    exact (Nat.zero_le i).trans_lt (hroot.lt i (by rw [hb]; exact mem_cons_self))
  have hnz : root.entry.rfa.1 ≠ 0 := by
    have := hN.lt
    rw [hroot.rfa]
    exact vbn_ne_zero (by omega) (by omega)
  have hunseen : Unseen first (indexNodes keys rfas first).length root.blocks (seen, []) :=
    fun b hb => ⟨hroot.lt b hb, hseen b (hroot.lt b hb)⟩
  obtain ⟨seen', hw, hs⟩ := walk_spec hN hroot.shows (show h < MAX_DEPTH + 1 by omega) hroot.nodup hunseen
  refine ⟨seen', ?_, fun n hn => ((hs n).1 hn).imp_right ?_⟩
  · rw [hroot2, entries, if_neg hnz, hw, hroot.keys, nil_append]
  · rintro ⟨b, hb, rfl⟩
    exact ⟨b, hroot.lt b hb, rfl⟩

end index

end Olb
