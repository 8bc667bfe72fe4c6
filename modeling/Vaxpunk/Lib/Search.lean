/-
  Depth-first search for a node through the requests of the nodes on the way,
  with a mark on each node gone through.

  What a search that finds nothing leaves marked is closed: every node a marked
  node leads to is marked, and is not the one looked for.  So a search finds a node
  exactly if there is a path to it (`reaches_iff`), and more depth than there are
  marks changes nothing (`reaches_depth`).
-/
import Mathlib

namespace Search

open Finset

/-- A loop that ends at the first true. -/
def anyFrom {α σ : Type} (f : α → σ → Bool × σ) : List α → σ → Bool × σ
  | [], v => (false, v)
  | x :: xs, v =>
    match f x v with
    | (true, v) => (true, v)
    | (false, v) => anyFrom f xs v

variable {α σ : Type} {xs : List α} {f : α → σ → Bool × σ} {I : σ → Prop} {v : σ}

theorem anyFrom_false {L : σ → σ → Prop}
    {D : α → σ → Prop} (hrefl : ∀ v, L v v) (htrans : ∀ {u v w}, L u v → L v w → L u w)
    (hstable : ∀ {x v w}, L v w → D x v → D x w)
    (hf : ∀ x ∈ xs, ∀ v w, I v → f x v = (false, w) → I w ∧ L v w ∧ D x w) {w : σ} (hv : I v)
    (h : anyFrom f xs v = (false, w)) : I w ∧ L v w ∧ ∀ x ∈ xs, D x w := by
  induction xs generalizing v with
  | nil =>
    cases h
    exact ⟨hv, hrefl _, by simp⟩
  | cons x xs ih =>
    rw [anyFrom] at h
    cases hx : f x v with
    | mk b u =>
      rw [hx] at h
      cases b with
      | true => cases h
      | false =>
        obtain ⟨hu, hvu, hdone⟩ := hf x (by simp) v u hv hx
        obtain ⟨hw, huw, hrest⟩ := ih (fun y hy => hf y (List.mem_cons_of_mem x hy)) hu h
        refine ⟨hw, htrans hvu huw, ?_⟩
        rintro y (_ | ⟨_, hy⟩)
        exacts [hstable huw hdone, hrest y hy]

theorem exists_of_anyFrom (h : (anyFrom f xs v).1 = true) : ∃ x ∈ xs, ∃ u, (f x u).1 = true := by
  induction xs generalizing v with
  | nil => cases h
  | cons x xs ih =>
    rw [anyFrom] at h
    cases hx : f x v with
    | mk b u =>
      rw [hx] at h
      cases b with
      | true => exact ⟨x, by simp, v, by rw [hx]⟩
      | false =>
        obtain ⟨y, hy, u', hu'⟩ := ih h
        exact ⟨y, List.mem_cons_of_mem x hy, u', hu'⟩

theorem anyFrom_keeps (hf : ∀ x ∈ xs, ∀ v, I v → I (f x v).2) (hv : I v) : I (anyFrom f xs v).2 := by
  induction xs generalizing v with
  | nil => exact hv
  | cons x xs ih =>
    have hx := hf x (by simp) v hv
    rw [anyFrom]
    cases hfx : f x v with
    | mk b u =>
      rw [hfx] at hx
      cases b with
      | true => exact hx
      | false => exact ih (fun y hy => hf y (List.mem_cons_of_mem x hy)) hx

theorem anyFrom_congr {g : α → σ → Bool × σ}
    (hf : ∀ x ∈ xs, ∀ v, I v → I (f x v).2) (hfg : ∀ x ∈ xs, ∀ v, I v → f x v = g x v)
    (hv : I v) : anyFrom f xs v = anyFrom g xs v := by
  induction xs generalizing v with
  | nil => rfl
  | cons x xs ih =>
    have hx := hf x (by simp) v hv
    rw [anyFrom, anyFrom, ← hfg x (by simp) v hv]
    cases hfx : f x v with
    | mk b u =>
      rw [hfx] at hx
      cases b with
      | true => rfl
      | false =>
        exact ih (fun y hy => hf y (List.mem_cons_of_mem x hy))
          (fun y hy => hfg y (List.mem_cons_of_mem x hy)) hx

/-- Nodes that make requests, and what blocks a request: something of another
    node's. -/
structure Graph (P Q B : Type) where
  requests : P → List Q
  blockers : Q → List B
  owner : B → P
  /-- The mark of a node. -/
  mark : P → ℕ

namespace Graph

variable {P Q B : Type} [DecidableEq P] (G : Graph P Q B)

/-- A request of `p` is blocked by something of `p'`. -/
def Edge (p p' : P) : Prop := ∃ q ∈ G.requests p, ∃ b ∈ G.blockers q, G.owner b = p'

/-- Whether `q` is blocked by something of `origin`'s, or of a node's that leads
    to it, and the nodes gone through.  A node is gone through once; `n` bounds
    how deep the calls nest. -/
def reaches (origin : P) : ℕ → Q → (ℕ → Bool) → Bool × (ℕ → Bool)
  | 0, _, v => (false, v)
  | n + 1, q, v =>
    anyFrom (fun b v =>
      if G.owner b = origin then (true, v)
      else if v (G.mark (G.owner b)) then (false, v)
      else anyFrom (reaches origin n) (G.requests (G.owner b))
        (Function.update v (G.mark (G.owner b)) true))
      (G.blockers q) v

variable {G} {origin : P} {N n : ℕ} {q : Q} {v w : ℕ → Bool}

def Grows (v w : ℕ → Bool) : Prop := ∀ i, v i → w i

/-- The marks below `N` that aren't set. -/
def unset (N : ℕ) (v : ℕ → Bool) : Finset ℕ := (Finset.range N).filter fun i => v i = false

theorem unset_mono (h : Grows v w) : unset N w ⊆ unset N v := by
  intro i hi
  simp only [unset, mem_filter] at hi ⊢
  refine ⟨hi.1, ?_⟩
  by_contra hne
  have := h i (by simpa using hne)
  simp [hi.2] at this

theorem grows_mark (v : ℕ → Bool) (i : ℕ) : Grows v (Function.update v i true) := by
  intro j hj
  by_cases hji : j = i <;> simp [hji, hj]

theorem card_unset_lt {u u' : ℕ → Bool} {i : ℕ} (hi : i < N) (hum : u i = false) (hu : Grows v u)
    (hu' : Grows (Function.update u i true) u') (hn : (unset N v).card < n + 1) :
    (unset N u').card < n := by
  have hgrow : Grows u u' := fun j hj => hu' j (grows_mark u i j hj)
  have hsub : unset N u' ⊆ (unset N u).erase i := by
    refine fun j hj => mem_erase.mpr ⟨?_, unset_mono hgrow hj⟩
    rintro rfl
    have := hu' j (by simp)
    simp [unset, this] at hj
  have hmem : i ∈ unset N u := mem_filter.mpr ⟨mem_range.mpr hi, hum⟩
  have h1 := card_le_card hsub
  have h2 := card_le_card (unset_mono (N := N) hu)
  rw [card_erase_of_mem hmem] at h1
  have h3 := card_pos.mpr ⟨i, hmem⟩
  omega

/-- What blocks `q` is of marked nodes, none of them the one looked for. -/
def Closed (G : Graph P Q B) (origin : P) (v : ℕ → Bool) (q : Q) : Prop :=
  ∀ b ∈ G.blockers q, G.owner b ≠ origin ∧ v (G.mark (G.owner b))

omit [DecidableEq P] in
theorem Closed.grows (hg : Grows v w) (h : G.Closed origin v q) : G.Closed origin w q :=
  fun b hb => ⟨(h b hb).1, hg _ (h b hb).2⟩

/-- The requests of the nodes marked since `v` are closed. -/
def ClosedSince (G : Graph P Q B) (S : Set P) (origin : P) (v w : ℕ → Bool) : Prop :=
  ∀ p ∈ S, w (G.mark p) → v (G.mark p) = false → ∀ q ∈ G.requests p, G.Closed origin w q

section Complete

variable {S : Set P}

/-- What a search from `q` that finds nothing leaves. -/
structure Leaves (G : Graph P Q B) (S : Set P) (origin : P) (v w : ℕ → Bool) : Prop where
  grows : Grows v w
  since : G.ClosedSince S origin v w

omit [DecidableEq P] in
theorem Leaves.refl : G.Leaves S origin v v :=
  ⟨fun _ h => h, fun p _ h h' => absurd h (by simp [h'])⟩

omit [DecidableEq P] in
theorem Leaves.trans {u : ℕ → Bool} (h : G.Leaves S origin u v) (h' : G.Leaves S origin v w) :
    G.Leaves S origin u w := by
  refine ⟨fun i hi => h'.grows i (h.grows i hi), fun p hp hw hu q hq => ?_⟩
  cases hv : v (G.mark p) with
  | true => exact (h.since p hp hv hu q hq).grows h'.grows
  | false => exact h'.since p hp hw hv q hq

/-- **What a search that finds nothing leaves marked is closed.** -/
theorem reaches_false (hinj : ∀ p ∈ S, ∀ p' ∈ S, G.mark p = G.mark p' → p = p')
    (hlt : ∀ p ∈ S, G.mark p < N) (hS : ∀ q, ∀ b ∈ G.blockers q, G.owner b ∈ S)
    (hn : (unset N v).card < n) (h : G.reaches origin n q v = (false, w)) :
    G.Leaves S origin v w ∧ G.Closed origin w q := by
  induction n generalizing q v w with
  | zero => exact absurd hn (Nat.not_lt_zero _)
  | succ n ih =>
    rw [reaches] at h
    have hstep : ∀ b ∈ G.blockers q, ∀ u w, Grows v u →
        (if G.owner b = origin then (true, u)
          else if u (G.mark (G.owner b)) then (false, u)
          else anyFrom (G.reaches origin n) (G.requests (G.owner b))
            (Function.update u (G.mark (G.owner b)) true)) = (false, w) →
        Grows v w ∧ G.Leaves S origin u w ∧ G.owner b ≠ origin ∧ w (G.mark (G.owner b)) := by
      intro b hb u w hu hf
      split_ifs at hf with ho hm
      · cases hf
      · cases hf
        exact ⟨hu, .refl, ho, hm⟩
      · -- the node of `b` is marked, and then each of its requests gone through
        have hbS := hS q b hb
        set i := G.mark (G.owner b) with hi
        have hum : u i = false := by simpa using hm
        have hgrow := grows_mark u i
        have hcard : ∀ u', Grows (Function.update u i true) u' → (unset N u').card < n :=
          fun u' hu' => card_unset_lt (hlt _ hbS) hum hu hu' hn
        obtain ⟨hgw, hleaves, hreq⟩ := anyFrom_false
          (I := fun u' => Grows (Function.update u i true) u')
          (L := fun u' w => G.Leaves S origin u' w) (D := fun q u' => G.Closed origin u' q)
          (fun _ => .refl) (fun h h' => h.trans h') (fun hg hd => hd.grows hg.grows)
          (fun q' _ u' w' hu' hf' => by
            obtain ⟨hl, hc⟩ := ih (hcard u' hu') hf'
            exact ⟨fun j hj => hl.grows j (hu' j hj), hl, hc⟩)
          (fun _ h => h) hf
        have huw : Grows u w := fun j hj => hleaves.grows j (hgrow j hj)
        refine ⟨fun j hj => huw j (hu j hj), ⟨huw, fun p hp hwp hup q' hq' => ?_⟩, ho, hgw i (by simp)⟩
        by_cases hpi : G.mark p = i
        · obtain rfl := hinj p hp _ hbS hpi
          exact hreq q' hq'
        · exact hleaves.since p hp hwp (by rw [Function.update_of_ne hpi]; exact hup) q' hq'
    obtain ⟨-, hleaves, hclosed⟩ := anyFrom_false (I := fun u => Grows v u)
      (L := fun u w => G.Leaves S origin u w)
      (D := fun b u => G.owner b ≠ origin ∧ u (G.mark (G.owner b)))
      (fun _ => .refl) (fun h h' => h.trans h') (fun hg hd => ⟨hd.1, hg.grows _ hd.2⟩) hstep (fun _ h => h) h
    exact ⟨hleaves, hclosed⟩

/-- **A search that finds nothing, from no marks on, misses nothing**: no node
    that blocks `q` leads to the one looked for. -/
theorem not_path_of_reaches (hinj : ∀ p ∈ S, ∀ p' ∈ S, G.mark p = G.mark p' → p = p')
    (hlt : ∀ p ∈ S, G.mark p < N) (hS : ∀ q, ∀ b ∈ G.blockers q, G.owner b ∈ S)
    (hv : ∀ i < N, v i = false) (hn : N < n) (h : (G.reaches origin n q v).1 = false) :
    ∀ b ∈ G.blockers q, ¬Relation.ReflTransGen G.Edge (G.owner b) origin := by
  obtain ⟨w, hw⟩ : ∃ w, G.reaches origin n q v = (false, w) := ⟨_, Prod.ext h rfl⟩
  have hcard : (unset N v).card < n := by
    refine lt_of_le_of_lt (card_filter_le _ _) ?_
    rwa [card_range]
  obtain ⟨hleaves, hclosed⟩ := reaches_false hinj hlt hS hcard hw
  intro b hb hpath
  -- every node on the way is marked and not the one looked for
  have hall : ∀ p, Relation.ReflTransGen G.Edge (G.owner b) p → p ≠ origin ∧ p ∈ S ∧ w (G.mark p) := by
    intro p hp
    induction hp with
    | refl => exact ⟨(hclosed b hb).1, hS q b hb, (hclosed b hb).2⟩
    | tail _ hedge ih =>
      obtain ⟨q', hq', b', hb', rfl⟩ := hedge
      have hc := hleaves.since _ ih.2.1 ih.2.2 (hv _ (hlt _ ih.2.1)) q' hq' b' hb'
      exact ⟨hc.1, hS q' b' hb', hc.2⟩
  exact (hall origin hpath).1 rfl

theorem path_of_reaches (h : (G.reaches origin n q v).1 = true) :
    ∃ b ∈ G.blockers q, Relation.ReflTransGen G.Edge (G.owner b) origin := by
  induction n generalizing q v with
  | zero => cases h
  | succ n ih =>
    obtain ⟨b, hb, u, hu⟩ := exists_of_anyFrom h
    refine ⟨b, hb, ?_⟩
    split_ifs at hu with ho hm
    · rw [ho]
    · obtain ⟨q', hq', u', hu'⟩ := exists_of_anyFrom hu
      obtain ⟨b', hb', hpath⟩ := ih hu'
      exact .head ⟨q', hq', b', hb', rfl⟩ hpath

/-- **A search from no marks on finds a node exactly if there is a path to it.** -/
theorem reaches_iff (hinj : ∀ p ∈ S, ∀ p' ∈ S, G.mark p = G.mark p' → p = p')
    (hlt : ∀ p ∈ S, G.mark p < N) (hS : ∀ q, ∀ b ∈ G.blockers q, G.owner b ∈ S)
    (hv : ∀ i < N, v i = false) (hn : N < n) :
    (G.reaches origin n q v).1 = true ↔
      ∃ b ∈ G.blockers q, Relation.ReflTransGen G.Edge (G.owner b) origin := by
  refine ⟨path_of_reaches, fun h => ?_⟩
  obtain ⟨b, hb, hpath⟩ := h
  by_contra hno
  exact not_path_of_reaches hinj hlt hS hv hn (Bool.eq_false_of_not_eq_true hno) b hb hpath

theorem reaches_grows : Grows v (G.reaches origin n q v).2 := by
  induction n generalizing q v with
  | zero => exact fun _ h => h
  | succ n ih =>
    refine anyFrom_keeps (I := fun u => Grows v u) (fun b _ u hu => ?_) fun _ h => h
    split_ifs
    · exact hu
    · exact hu
    · refine anyFrom_keeps (I := fun u => Grows v u)
        (fun q' _ u' hu' j hj => ih j (hu' j hj)) fun j hj => grows_mark u _ j (hu j hj)

/-- **A search nests no deeper than there are marks left.** -/
theorem reaches_depth (hlt : ∀ p ∈ S, G.mark p < N) (hS : ∀ q, ∀ b ∈ G.blockers q, G.owner b ∈ S)
    (hn : (unset N v).card < n) : G.reaches origin (n + 1) q v = G.reaches origin n q v := by
  induction n generalizing q v with
  | zero => exact absurd hn (Nat.not_lt_zero _)
  | succ n ih =>
    rw [reaches, reaches]
    refine anyFrom_congr (I := fun u => Grows v u) (fun b _ u hu => ?_) (fun b hb u hu => ?_) fun _ h => h
    · split_ifs
      · exact hu
      · exact hu
      · exact anyFrom_keeps (I := fun u => Grows v u)
          (fun q' _ u' hu' j hj => reaches_grows j (hu' j hj)) fun j hj => grows_mark u _ j (hu j hj)
    · split_ifs with ho hm
      · rfl
      · rfl
      · have hum : u (G.mark (G.owner b)) = false := by simpa using hm
        refine anyFrom_congr (I := fun u' => Grows (Function.update u (G.mark (G.owner b)) true) u')
          (fun q' _ u' hu' j hj => reaches_grows j (hu' j hj)) (fun q' _ u' hu' => ih ?_) fun _ h => h
        exact card_unset_lt (hlt _ (hS q b hb)) hum hu hu' hn

end Complete

end Graph

/-! ## Cycles -/

section Cycles

open Relation

variable {α : Type} {R R' : α → α → Prop} {a b c : α}

theorem cycle_of_cycle (h : ∀ a b c, R' a b → R' b c → R a b) (hc : TransGen R' a a) : TransGen R a a := by
  have hpath : ∀ {x}, TransGen R' x a → TransGen R x a := by
    intro x hxa
    obtain ⟨z, hz, -⟩ := TransGen.head'_iff.mp hc
    induction hxa using TransGen.head_induction_on with
    | single hx => exact .single (h _ _ _ hx hz)
    | head hxy hya ih =>
      obtain ⟨u, hu, -⟩ := TransGen.head'_iff.mp hya
      exact .head (h _ _ _ hxy hu) ih
  exact hpath hc

/-- A cycle that edges from one node to some others close leads from one of them back
    to it. -/
theorem cycle_through {T : α → Prop} (h : ∀ a c, R' a c → R a c ∨ a = b ∧ T c) (hc : TransGen R' a a) :
    TransGen R a a ∨ ∃ c, T c ∧ ReflTransGen R' c b := by
  have hpath : ∀ {x}, TransGen R' x a →
      TransGen R x a ∨ ReflTransGen R' x b ∧ ∃ c, T c ∧ ReflTransGen R' c a := by
    intro x hxa
    induction hxa using TransGen.head_induction_on with
    | single hx =>
      rcases h _ _ hx with hR | ⟨rfl, hT⟩
      exacts [.inl (.single hR), .inr ⟨.refl, _, hT, .refl⟩]
    | head hxy hya ih =>
      rcases h _ _ hxy with hR | ⟨rfl, hT⟩
      · exact ih.imp (.head hR) fun hb => ⟨.head hxy hb.1, hb.2⟩
      · exact .inr ⟨.refl, _, hT, hya.to_reflTransGen⟩
  exact (hpath hc).imp id fun ⟨hab, c, hT, hca⟩ => ⟨c, hT, hca.trans hab⟩

end Cycles

end Search
