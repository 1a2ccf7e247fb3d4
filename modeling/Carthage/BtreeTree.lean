import Carthage.BtreeUpdate

/-!
# Well-formed trees

The leaves of a tree hold its items in order, and the index over them leads a search to
the leaf that holds a key or would hold it.
-/

namespace Carthage

/-- What `btree_create` makes of its arguments. -/
structure Geometry.Created (g : Geometry) : Prop where
  prefixSize : g.prefixSize = g.keySize
  keySize : g.keySize < 2 ^ 16
  blockSize : g.blockSize < 2 ^ 32
  fanout : g.fanout = g.nodeSpace / g.twigNeeded % 2 ^ 16
  large : 16 + 4 * (8 + g.keySize * 4) ≤ g.blockSize

namespace Btree

variable {K D : Type} {s s' : Btree K D} {E : Prop} {x : ℕ} {L items : List (K × List UInt8)}
  {xs : List (ℕ × K)} {above : List (List (ℕ × K))} {q : K}

theorem LeafAt.unique {items' : List (K × List UInt8)} (h : LeafAt s x items)
    (h' : LeafAt s x items') : items = items' := by
  obtain ⟨node, hx, ⟨t⟩⟩ := h
  obtain ⟨node', hx', ⟨t'⟩⟩ := h'
  obtain rfl := Option.some.inj (hx.symm.trans hx')
  have hleaf : t.leaf = t'.leaf := by
    have hdata := Option.some.inj (t.data.symm.trans t'.data)
    exact PageBody.leaf.inj (congrArg Page.body hdata)
  exact LeafPage.Packed.unique t.packed (hleaf ▸ t'.packed)

/-- The leaves `xs` hold, in order, the items `L`. -/
def Leaves (s : Btree K D) : List (K × List UInt8) → List (ℕ × K) → Prop :=
  Grouped (fun y items => LeafAt s y items) Prod.fst

variable [LinearOrder K]

/-- A tree with items `L` in the leaves `xs`, and twigs `above`. -/
structure Tree (E : Prop) (s : Btree K D) (L : List (K × List UInt8)) (xs : List (ℕ × K))
    (above : List (List (ℕ × K))) : Prop where
  leaves : Leaves s L xs
  index : Index E s 1 xs above
  rising : Rising Prod.fst L
  height : s.super.height = above.length + 2
  levels : above.length + 2 < 2 ^ 8

/-- No reference is held, and new addresses are unused. -/
structure Quiet (s : Btree K D) : Prop where
  refs : s.refs = 0
  blank : ∀ z, s.fresh ≤ z → s.heap z = none

/-- A well-formed tree with items `L`; `E` says whether `nh_free` is exact in the twigs. -/
structure WellFormed (E : Prop) (s : Btree K D) (L : List (K × List UInt8)) : Prop where
  created : s.super.toGeometry.Created
  quiet : s.Quiet
  tree : s.root = none ∧ s.super.height = 1 ∧ L = [] ∨ ∃ xs above, Tree E s L xs above

namespace Tree

theorem rising_leaves (h : Tree E s L xs above) : Rising Prod.snd xs := h.leaves.rising h.rising

theorem rooted (h : Tree E s L xs above) : ∀ z ∈ xs, Rooted s 1 z.1 := fun z hz => by
  obtain ⟨items, w, hl, -⟩ := h.leaves.group hz
  exact ⟨items, hl⟩

theorem resident (h : Tree E s L xs above) : ∀ z ∈ xs, ResidentAt s z.1 :=
  fun z hz => (h.rooted z hz).resident

end Tree

/-- The leaf `z` that a search for `q` leads to, with its items `I`. -/
structure LeafFor (s : Btree K D) (L : List (K × List UInt8)) (xs : List (ℕ × K)) (q : K)
    (pre : List (ℕ × K)) (z : ℕ × K) (post : List (ℕ × K)) (A I B : List (K × List UInt8)) :
    Prop where
  locates : Locates xs q pre z post
  items : L = A ++ I ++ B
  leaf : LeafAt s z.1 I
  last : ∃ w, I.getLast? = some w ∧ w.1 = z.2
  left : Leaves s A pre
  right : Leaves s B post
  rising : Rising Prod.fst I
  before : ∀ x ∈ A, x.1 < q
  after : ∀ x ∈ B, q < x.1 ∧ z.2 < x.1

theorem LeafFor.mem_iff {pre post : List (ℕ × K)} {z : ℕ × K} {A I B : List (K × List UInt8)}
    (h : LeafFor s L xs q pre z post A I B) (v : List UInt8) : (q, v) ∈ L ↔ (q, v) ∈ I := by
  rw [h.items, List.mem_append, List.mem_append]
  constructor
  · rintro ((hA | hI) | hB)
    · exact absurd (h.before _ hA) (lt_irrefl q)
    · exact hI
    · exact absurd (h.after _ hB).1 (lt_irrefl q)
  · exact fun hI => Or.inl (Or.inr hI)

theorem LeafFor.key_mem_iff {pre post : List (ℕ × K)} {z : ℕ × K}
    {A I B : List (K × List UInt8)} (h : LeafFor s L xs q pre z post A I B) :
    q ∈ L.map Prod.fst ↔ q ∈ I.map Prod.fst := by
  simp only [List.mem_map, Prod.exists, exists_and_right, exists_eq_right, h.mem_iff]

variable (env : BtreeEnv K D)

theorem Index.search (h : Index E s 1 xs above) (hxs : Rising Prod.snd xs)
    (hleaf : ∀ z ∈ xs, ∃ I, LeafAt s z.1 I ∧ Rising Prod.fst I) (hfit : above.length + 1 < 2 ^ 8)
    (hr : 0 ≤ s.refs) (q : K) (place : Place) :
    ∃ pre z post I place', Locates xs q pre z post ∧ LeafAt s z.1 I ∧ Rising Prod.fst I ∧
      place'.index = rank (I.map Prod.fst) q ∧ place'.found = decide (q ∈ I.map Prod.fst) ∧
      ((∀ x ∈ xs, x.2 ≠ q) → q ∉ I.map Prod.fst → place'.size = place.size) ∧
      (∀ v, (q, v) ∈ I → place'.size = v.length) ∧
      s.btreeLookupLevel env q 1 place = some (some z.1, place', s.addRef z.1 1) := by
  have hlevel : ∀ j, 1 < j → j ≤ 1 + above.length → 1 ≠ j := fun j h1 _ => by omega
  have hres : ∀ z ∈ xs, ResidentAt s z.1 := fun z hz => by
    obtain ⟨I, hI, -⟩ := hleaf z hz
    exact hI.resident
  obtain ⟨root, pre, z, post, place₁, hroot, hrr, hloc, hsize₁, hloop⟩ :=
    h.descend env hxs le_rfl hlevel hres hr q place
  obtain ⟨I, hI, hrise⟩ := hleaf z (by simp [hloc.split])
  have hI' : LeafAt (s.addRef z.1 1) z.1 I := hI.frame rfl rfl
  obtain ⟨page, hp, hpl, -⟩ := hI'.page_items
  obtain ⟨found, index, size, hsearch, hnode, hmiss, hhit⟩ := searchNode_leaf hI' q place₁
  rw [indexSearch_spec (rising_map.mp hrise)] at hsearch
  obtain ⟨rfl, rfl⟩ := Prod.mk.inj (Option.some.inj hsearch)
  refine ⟨pre, z, post, I, ⟨rank (I.map Prod.fst) q, size, decide (q ∈ I.map Prod.fst)⟩,
    hloc, hI, hrise, rfl, rfl, fun hno hq => ?_, fun v hv => ?_, ?_⟩
  · exact (hmiss (decide_eq_false hq)).trans (hsize₁ hno)
  · have hmem : q ∈ I.map Prod.fst := List.mem_map.mpr ⟨(q, v), hv, rfl⟩
    obtain ⟨e, he, heq, hsize⟩ := hhit (decide_eq_true hmem)
    have : e = (q, v) := hrise.inj (List.mem_of_getElem? he) hv heq
    rw [hsize, this]
  · have hfuel : maxLevels = (maxLevels - 1 - above.length) + 1 + above.length := by
      have : maxLevels = 2 ^ 8 := rfl
      omega
    rw [btreeLookupLevel_eq env hroot hrr, hfuel, hloop, lookupLoop]
    simp only [hnode, hp, hpl, if_true, Option.bind_eq_bind, Option.bind_some, Option.pure_def]

theorem lookup_of_mem (hL : Rising Prod.fst L) {v : List UInt8} (h : (q, v) ∈ L) :
    L.lookup q = some v := by
  induction L with
  | nil => exact (List.not_mem_nil h).elim
  | cons x L ih =>
      obtain ⟨hx, hL'⟩ := List.pairwise_cons.mp hL
      rcases List.mem_cons.mp h with rfl | hmem
      · exact List.lookup_cons_self
      · rw [List.lookup_cons, beq_false_of_ne (hx _ hmem).ne', ih hL' hmem]

theorem lookup_of_notMem (h : q ∉ L.map Prod.fst) : L.lookup q = none := by
  rw [List.lookup_eq_none_iff]
  intro p hp
  exact bne_iff_ne.mpr fun hq => h (List.mem_map.mpr ⟨p, hp, hq.symm⟩)

theorem lookup_middle {A I B : List (K × List UInt8)} (hA : ∀ x ∈ A, x.1 < q)
    (hB : ∀ x ∈ B, q < x.1) : (A ++ I ++ B).lookup q = I.lookup q := by
  have hno : A.lookup q = none := lookup_of_notMem fun hmem => by
    obtain ⟨x, hx, hxq⟩ := List.mem_map.mp hmem
    exact (hA x hx).ne hxq
  have hno' : B.lookup q = none := lookup_of_notMem fun hmem => by
    obtain ⟨x, hx, hxq⟩ := List.mem_map.mp hmem
    exact (hB x hx).ne' hxq
  rw [List.lookup_append, List.lookup_append, hno, hno', Option.none_or, Option.or_none]

theorem Index.lookup (h : Index E s 1 xs above) (hxs : Rising Prod.snd xs)
    (hleaf : ∀ z ∈ xs, ∃ I, LeafAt s z.1 I ∧ Rising Prod.fst I) (hfit : above.length + 1 < 2 ^ 8)
    (hr : 0 ≤ s.refs) (q : K) (size : ℕ) :
    ∃ pre z post I, Locates xs q pre z post ∧ LeafAt s z.1 I ∧ Rising Prod.fst I ∧
      s.btreeLookup env q size = some (((I.lookup q).getD []).take size, s) := by
  obtain ⟨pre, z, post, I, place, hloc, hI, hrise, hindex, hfound, -, hsize, hlook⟩ :=
    h.search env hxs hleaf hfit hr q noPlace
  refine ⟨pre, z, post, I, hloc, hI, hrise, ?_⟩
  have hrelease := btnodeRelease_added env hI.resident hr
  by_cases hq : q ∈ I.map Prod.fst
  · obtain ⟨⟨k, v⟩, hv, hkq⟩ := List.mem_map.mp hq
    obtain rfl : k = q := hkq
    have hval : I.lookup k = some v := lookup_of_mem hrise hv
    obtain ⟨C, C', rfl, hrank⟩ := rank_of_mem hrise hv
    have hleaf' : LeafAt (s.addRef z.1 1) z.1 (C ++ (k, v) :: C') := hI.frame rfl rfl
    obtain ⟨crc, leaf, hp, hpacked⟩ := hleaf'.page
    obtain ⟨slot, hslot, -, hread⟩ := hpacked.slot
    have hmin : leaf.mem.read slot.offset (min size place.size) = v.take size := by
      rw [hsize v hv, Bytes.read_min, hread]
    simp only [btreeLookup, hlook, hfound, decide_eq_true hq, hp, Page.leaf?, hindex, hrank, hslot,
      hmin, hrelease, hval, Option.bind_eq_bind, Option.bind_some, Bool.not_true,
      Bool.false_eq_true, if_false, Option.pure_def, Option.getD_some]
  · have hno : I.lookup q = none := lookup_of_notMem hq
    simp only [btreeLookup, hlook, hfound, decide_eq_false hq, hrelease, hno, Option.bind_eq_bind,
      Option.bind_some, Bool.not_false, if_true, Option.pure_def, Option.getD_none, List.take_nil]

theorem leafFor_of_locates {pre post : List (ℕ × K)} {z : ℕ × K} {I : List (K × List UInt8)}
    (hL : Leaves s L xs) (hs : Rising Prod.fst L) (hloc : Locates xs q pre z post)
    (hI : LeafAt s z.1 I) : ∃ A B, LeafFor s L xs q pre z post A I B := by
  obtain ⟨A, I', B, w, heq, hleaf, hw, hwz, hA, hB, hI', hbefore, hafter⟩ := hL.located hs hloc
  obtain rfl := hleaf.unique hI
  exact ⟨A, B, hloc, heq, hleaf, ⟨w, hw, hwz⟩, hA, hB, hI', hbefore, hafter⟩

theorem Leaves.sorted (hL : Leaves s L xs) (hs : Rising Prod.fst L) :
    ∀ z ∈ xs, ∃ I, LeafAt s z.1 I ∧ Rising Prod.fst I := by
  intro z hz
  obtain ⟨pre, post, hsplit⟩ := List.append_of_mem hz
  obtain ⟨A, I, B, w, rfl, hI, -⟩ := hL.split_upper hsplit
  exact ⟨I, hI, (List.pairwise_append.mp (List.pairwise_append.mp hs).1).2.1⟩

theorem Leaves.search (hL : Leaves s L xs) (h : Index E s 1 xs above) (hs : Rising Prod.fst L)
    (hfit : above.length + 1 < 2 ^ 8) (hr : 0 ≤ s.refs) (q : K) (place : Place) :
    ∃ pre z post A I B place', LeafFor s L xs q pre z post A I B ∧
      place'.index = rank (I.map Prod.fst) q ∧ place'.found = decide (q ∈ I.map Prod.fst) ∧
      (q ∉ L.map Prod.fst → place'.size = place.size) ∧
      (∀ v, (q, v) ∈ I → place'.size = v.length) ∧
      s.btreeLookupLevel env q 1 place = some (some z.1, place', s.addRef z.1 1) := by
  obtain ⟨pre, z, post, I, place', hloc, hI, -, hindex, hfound, hmiss, hsize, hlook⟩ :=
    h.search env (Grouped.rising hL hs) (hL.sorted hs) hfit hr q place
  obtain ⟨A, B, hfor⟩ := leafFor_of_locates hL hs hloc hI
  refine ⟨pre, z, post, A, I, B, place', hfor, hindex, hfound, fun hq => ?_, hsize, hlook⟩
  apply hmiss
  · intro x hx hxq
    obtain ⟨c, w, -, hw, hwx, hsub⟩ := hL.group hx
    exact hq (List.mem_map.mpr ⟨w, hsub w (List.mem_of_getLast? hw), hwx.trans hxq⟩)
  · exact fun hmem => hq (hfor.key_mem_iff.mpr hmem)

theorem LeafFor.lookup {pre post : List (ℕ × K)} {z : ℕ × K} {A I B : List (K × List UInt8)}
    (h : LeafFor s L xs q pre z post A I B) : L.lookup q = I.lookup q := by
  rw [h.items]
  exact lookup_middle h.before fun x hx => (h.after x hx).1

theorem Tree.lookup (h : Tree E s L xs above) (hr : 0 ≤ s.refs) (q : K) (size : ℕ) :
    s.btreeLookup env q size = some (((L.lookup q).getD []).take size, s) := by
  have hlevels := h.levels
  obtain ⟨pre, z, post, I, hloc, hI, -, hrun⟩ :=
    h.index.lookup env h.rising_leaves (h.leaves.sorted h.rising) (by omega) hr q size
  obtain ⟨A, B, hfor⟩ := leafFor_of_locates h.leaves h.rising hloc hI
  rw [hrun, hfor.lookup]

end Btree

end Carthage
