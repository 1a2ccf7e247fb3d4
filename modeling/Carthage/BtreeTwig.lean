import Carthage.BtreeTree

/-!
# Twig operations

What allocation, insertion of a child and a split do to a twig; everything but the nodes
they are about stays.
-/

namespace Carthage

namespace Btree

variable {K D : Type} {s s' t : Btree K D} {E : Prop} {level x left right child : ℕ} {key : K}
  {cs c1 c2 : List (ℕ × K)}

/-! ## Allocation -/

/-- No address from `fresh` on is in use. -/
def Blank (s : Btree K D) : Prop := ∀ z, s.fresh ≤ z → s.heap z = none ∧ s.refs z = 0

def emptyNode (uninit : Bytes) (s : Btree K D) (level : ℕ) : BtNode K :=
  ⟨if level = 1 then none else some (List.replicate s.super.fanout none),
    some ⟨0, level, if level = 1 then .leaf ⟨[], s.super.nodeSpace, uninit⟩
      else .twig ⟨[], s.super.nodeSpace⟩⟩, 0, 0, false, false, false⟩

/-- The state after a node was allocated, without the reference to it. -/
def allocated (uninit : Bytes) (s : Btree K D) (level : ℕ) : Btree K D :=
  { s with
    mallocs := s.mallocs + 2, fresh := s.fresh + 1,
    heap := Function.update s.heap s.fresh (some (emptyNode uninit s level)),
    super := { s.super with nodeCount := add64 s.super.nodeCount 1 } }

/-- Both requests for a node, the `n`-th and the next one, are granted. -/
def NodeGranted (env : BtreeEnv K D) (n : ℕ) : Prop :=
  env.granted n = true ∧ env.granted (n + 1) = true

/-- The requests for `r` nodes in turn, from the `n`-th on, are granted. -/
def NodesGranted (env : BtreeEnv K D) (n r : ℕ) : Prop := ∀ i < r, NodeGranted env (n + 2 * i)

theorem nodesGranted_succ {env : BtreeEnv K D} {n r : ℕ} :
    NodesGranted env n (r + 1) ↔ NodeGranted env n ∧ NodesGranted env (n + 2) r := by
  constructor
  · intro h
    refine ⟨h 0 (Nat.succ_pos r), fun i hi => ?_⟩
    have hnext := h (i + 1) (Nat.succ_lt_succ hi)
    rwa [Nat.mul_add, Nat.mul_one, Nat.add_comm (2 * i), ← Nat.add_assoc] at hnext
  · rintro ⟨hfirst, hrest⟩ i hi
    cases i with
    | zero => exact hfirst
    | succ i =>
        rw [Nat.mul_add, Nat.mul_one, Nat.add_comm (2 * i), ← Nat.add_assoc]
        exact hrest i (Nat.lt_of_succ_lt_succ hi)

theorem btnodeAlloc_granted (env : BtreeEnv K D) (hg : NodeGranted env s.mallocs) (hb : s.Blank)
    (level : ℕ) : s.btnodeAlloc env level =
      (some s.fresh, (s.allocated env.uninit level).addRef s.fresh 1) := by
  have hrefs : Function.update s.refs s.fresh 1 = s.refs + Pi.single s.fresh 1 := by
    funext z
    by_cases hz : z = s.fresh
    · subst hz
      simp [(hb _ le_rfl).2]
    · simp [hz]
  simp only [btnodeAlloc, btnodeLevelAlloc, malloc, hg.1, hg.2, if_true, Function.update_idem, hrefs,
    emptyBody, allocated, emptyNode, addRef]

def spent (s : Btree K D) (fresh mallocs : ℕ) : Btree K D :=
  { s with fresh := fresh, mallocs := mallocs }

theorem btnodeAlloc_refused (env : BtreeEnv K D) (hno : ¬ NodeGranted env s.mallocs)
    (hb : s.Blank) (level : ℕ) :
    ∃ f m, s.fresh ≤ f ∧ s.btnodeAlloc env level = (none, s.spent f m) := by
  obtain ⟨hheap, hrefs⟩ := hb s.fresh le_rfl
  by_cases hfirst : env.granted s.mallocs = true
  · have hsecond : ¬ env.granted (s.mallocs + 1) = true := fun hsecond => hno ⟨hfirst, hsecond⟩
    refine ⟨s.fresh + 1, s.mallocs + 2, Nat.le_succ s.fresh, ?_⟩
    have hheap' : Function.update s.heap s.fresh none = s.heap := by
      rw [← hheap]
      exact Function.update_eq_self _ _
    have hrefs' : Function.update s.refs s.fresh 0 = s.refs := by
      rw [← hrefs]
      exact Function.update_eq_self _ _
    simp only [btnodeAlloc, btnodeLevelAlloc, malloc, hfirst, hsecond, if_true, freeNode,
      Function.update_idem, hheap', hrefs', Bool.false_eq_true, if_false, spent]
  · refine ⟨s.fresh, s.mallocs + 1, le_rfl, ?_⟩
    simp only [btnodeAlloc, btnodeLevelAlloc, malloc, hfirst, Bool.false_eq_true, if_false, spent]

theorem allocated_heap_ne {uninit : Bytes} {z : ℕ} (hz : z ≠ s.fresh) :
    (s.allocated uninit level).heap z = s.heap z := Function.update_of_ne hz _ _

theorem Blank.ne_fresh (hb : s.Blank) (hx : s.heap x ≠ none) : x ≠ s.fresh := by
  rintro rfl
  exact hx (hb _ le_rfl).1

theorem Blank.allocated {uninit : Bytes} (hb : s.Blank) : (s.allocated uninit level).Blank := by
  intro z hz
  have hz' : s.fresh + 1 ≤ z := hz
  rw [allocated_heap_ne (by omega)]
  exact hb z (by omega)

theorem twigIn_allocated {uninit : Bytes} (hl : level ≠ 1) (hn : s.super.fanout < 2 ^ 16) :
    TwigIn E (s.allocated uninit level) s.fresh level [] := by
  refine ⟨emptyNode uninit s level, Function.update_self _ _ _, ⟨?_⟩⟩
  refine ⟨0, ⟨[], s.super.nodeSpace⟩, List.replicate s.super.fanout none, ?_, rfl, ?_,
    List.length_replicate, Nat.zero_le _, hn, rfl, fun _ => ?_⟩
  · simp only [emptyNode, if_neg hl]
  · simp only [emptyNode, if_neg hl]
  · simp only [List.length_nil, Nat.zero_mul, Nat.add_zero]
    rfl

theorem leafIn_allocated {uninit : Bytes} (hb : 16 ≤ s.super.blockSize) :
    LeafIn (s.allocated uninit 1) s.fresh [] := by
  refine ⟨emptyNode uninit s 1, Function.update_self _ _ _, ⟨?_⟩⟩
  exact ⟨0, ⟨[], s.super.nodeSpace, uninit⟩, rfl, LeafPage.packed_nil hb uninit⟩

/-! ## Inserting a child -/

theorem moveSlots_gap (A B R : List (Option ℕ)) (r : Option ℕ) :
    ∃ y, moveSlots (A ++ B ++ r :: R) (A.length + 1) A.length B.length = A ++ y :: (B ++ R) := by
  obtain ⟨y, Y, hy⟩ : ∃ y Y, B ++ r :: R = y :: Y := by
    cases B with
    | nil => exact ⟨r, R, rfl⟩
    | cons y B => exact ⟨y, B ++ r :: R, rfl⟩
  have htake : (A ++ (B ++ r :: R)).take (A.length + 1) = A ++ [y] := by
    rw [hy, List.take_append, List.take_of_length_le (by omega)]
    simp
  have hdrop : (A ++ (B ++ r :: R)).drop (A.length + 1 + B.length) = R := by
    rw [← List.append_assoc, List.drop_append, List.drop_of_length_le (by simp)]
    have : A.length + 1 + B.length - (A ++ B).length = 1 := by simp; omega
    rw [this, List.nil_append, List.drop_one, List.tail_cons]
  have hassoc : A ++ B ++ r :: R = A ++ (B ++ r :: R) := List.append_assoc _ _ _
  refine ⟨y, ?_⟩
  rw [moveSlots, hassoc, htake, hdrop, List.drop_left, List.take_left]
  simp

theorem moveSlots_set (A B R : List (Option ℕ)) (r x : Option ℕ) :
    (moveSlots (A ++ B ++ r :: R) (A.length + 1) A.length B.length).set A.length x =
      A ++ x :: (B ++ R) := by
  obtain ⟨y, hy⟩ := moveSlots_gap A B R r
  rw [hy]
  simp

theorem twig_room {g : Geometry} (hg : g.Created) {free n : ℕ}
    (hfree : free + n * g.twigNeeded = g.nodeSpace) (hn : n < g.fanout) :
    g.twigNeeded ≤ free ∧ free < 2 ^ 32 := by
  have hfan : g.fanout ≤ g.nodeSpace / g.twigNeeded := hg.fanout ▸ Nat.mod_le _ _
  have hle : (n + 1) * g.twigNeeded ≤ g.nodeSpace :=
    (Nat.mul_le_mul_right _ (by omega)).trans (Nat.div_mul_le_self _ _)
  have hspace : g.nodeSpace ≤ g.blockSize := Nat.sub_le _ _
  have := hg.blockSize
  rw [Nat.add_mul, Nat.one_mul] at hle
  omega

theorem twigInsertChild_spec (h : TwigIn E s x level (c1 ++ c2)) (hg : s.super.Created)
    (hlt : (c1 ++ c2).length < s.super.fanout) (key : K) (child : ℕ) :
    ∃ node, s.twigInsertChild x c1.length key child = some (s.setNode x node) ∧
      TwigAt E (s.setNode x node) x level (c1 ++ (child, key) :: c2) := by
  obtain ⟨node, hx, ⟨b⟩⟩ := h
  have hlen : b.twig.entries.length = (c1 ++ c2).length := by
    simpa using congrArg List.length b.keys
  have hF : b.pointers.length = s.super.fanout := b.length
  obtain ⟨r, R, hR⟩ : ∃ r R, b.pointers.drop (c1 ++ c2).length = r :: R := by
    rw [← List.ne_nil_iff_exists_cons, Ne, List.drop_eq_nil_iff]
    omega
  have hp : b.pointers = c1.map (fun z => some z.1) ++ c2.map (fun z => some z.1) ++ r :: R := by
    rw [← List.take_append_drop (c1 ++ c2).length b.pointers, b.linked, hR, List.map_append]
  have hmove := moveSlots_set (c1.map (fun z => some z.1)) (c2.map (fun z => some z.1)) R r
    (some child)
  rw [← hp, List.length_map, List.length_map] at hmove
  let twig' : TwigPage K := ⟨b.twig.entries.insertIdx c1.length (key, nullPointer),
    sub32 b.twig.free s.super.twigNeeded⟩
  let pointers' := c1.map (fun z => some z.1) ++ some child :: (c2.map (fun z => some z.1) ++ R)
  let node' : BtNode K :=
    { node with pointers := some pointers', data := some ⟨b.crc, level, .twig twig'⟩, dirty := true }
  have hn : (c1 ++ c2).length - c1.length = c2.length := by simp
  have hstep : s.twigInsertChild x c1.length key child = some (s.setNode x node') := by
    have hle : c1.length ≤ (c1 ++ c2).length ∧ (c1 ++ c2).length < b.pointers.length :=
      ⟨by simp, by omega⟩
    have hlen' : c1.length < (moveSlots b.pointers (c1.length + 1) c1.length c2.length).length := by
      have : (c1 ++ c2).length = c1.length + c2.length := List.length_append
      simp only [moveSlots, List.length_append, List.length_take, List.length_drop]
      omega
    simp only [twigInsertChild, twigInsert, hx, b.data, b.array, Page.twig?, hlen, hn, if_pos hle,
      setPointer, putTwig, setNode_heap_self, if_pos hlen', hmove, setNode_setNode,
      Option.bind_eq_bind, Option.bind_some, Option.pure_def]
    rfl
  refine ⟨node', hstep, node', setNode_heap_self _ _ _, ⟨⟨?_, Or.inl rfl⟩⟩⟩
  refine ⟨b.crc, twig', pointers', rfl, ?_, rfl, ?_, ?_, b.narrow, ?_, fun hE => ?_⟩
  · have hmid := insertIdx_middle (c1.map Prod.snd) (c2.map Prod.snd) key
    rw [List.length_map] at hmid
    rw [List.map_insertIdx, b.keys, List.map_append, hmid, List.map_append, List.map_cons]
  · have := congrArg List.length hp
    simp only [pointers', List.length_append, List.length_cons, List.length_map] at this ⊢
    exact hF ▸ this ▸ by omega
  · simp only [List.length_append, List.length_cons] at hlt ⊢
    exact hlt
  · have hmap : pointers' = (c1 ++ (child, key) :: c2).map (fun z => some z.1) ++ R := by
      simp [pointers']
    rw [hmap, List.take_left' (List.length_map _)]
  · have hfree : b.twig.free + (c1 ++ c2).length * s.super.twigNeeded = s.super.nodeSpace :=
      b.free hE
    obtain ⟨hle, hsmall⟩ := twig_room hg hfree hlt
    have hcount : (c1 ++ (child, key) :: c2).length = (c1 ++ c2).length + 1 := by simp; omega
    change sub32 b.twig.free s.super.twigNeeded + _ * s.super.twigNeeded = s.super.nodeSpace
    rw [sub32_eq hsmall hle, hcount, Nat.add_mul, Nat.one_mul]
    omega

/-! ## Splitting -/

theorem split_space {g : Geometry} (hg : g.Created) {m : ℕ} (hm : m ≤ g.fanout) :
    sub32 (sub32 g.nodeSpace (m * g.prefixSize)) (m * 16) + m * g.twigNeeded = g.nodeSpace := by
  have hfan : g.fanout ≤ g.nodeSpace / g.twigNeeded := hg.fanout ▸ Nat.mod_le _ _
  have hle : m * g.twigNeeded ≤ g.nodeSpace :=
    (Nat.mul_le_mul_right _ (hm.trans hfan)).trans (Nat.div_mul_le_self _ _)
  have hspace : g.nodeSpace ≤ g.blockSize := Nat.sub_le _ _
  have hsize := hg.blockSize
  have hsum : m * g.twigNeeded = m * g.prefixSize + m * 16 := Nat.mul_add _ _ _
  have hinner : sub32 g.nodeSpace (m * g.prefixSize) = g.nodeSpace - m * g.prefixSize :=
    sub32_eq (by omega) (by omega)
  rw [hinner, sub32_eq (by omega) (by omega)]
  omega

theorem twigSplit_spec {cl cr : List (ℕ × K)} (h : TwigIn E s left level (cl ++ cr))
    (hr : TwigIn E s right level []) (hne : left ≠ right) (hg : s.super.Created)
    (hhalf : cl.length = (cl ++ cr).length / 2) :
    ∃ lnode rnode, s.twigSplit left right = some ((s.setNode right rnode).setNode left lnode) ∧
      TwigAt E ((s.setNode right rnode).setNode left lnode) left level cl ∧
      TwigAt E ((s.setNode right rnode).setNode left lnode) right level cr := by
  obtain ⟨lnode, hxl, ⟨l⟩⟩ := h
  obtain ⟨rnode, hxr, ⟨r⟩⟩ := hr
  have hlen : l.twig.entries.length = (cl ++ cr).length := by
    simpa using congrArg List.length l.keys
  have hsum : (cl ++ cr).length = cl.length + cr.length := List.length_append
  have hF : l.pointers.length = s.super.fanout := l.length
  have hF' : r.pointers.length = s.super.fanout := r.length
  have hwithin : (cl ++ cr).length ≤ s.super.fanout := l.within
  have hright : (cl ++ cr).length - cl.length = cr.length := by omega
  have hp : l.pointers = cl.map (fun z => some z.1) ++ cr.map (fun z => some z.1) ++
      l.pointers.drop (cl ++ cr).length := by
    conv_lhs => rw [← List.take_append_drop (cl ++ cr).length l.pointers, l.linked, List.map_append]
  have htakep : l.pointers.take cl.length = cl.map (fun z => some z.1) := by
    rw [hp, List.append_assoc, List.take_left' (List.length_map _)]
  have hdropp : (l.pointers.drop cl.length).take cr.length = cr.map (fun z => some z.1) := by
    rw [hp, List.append_assoc, List.drop_left' (List.length_map _),
      List.take_left' (List.length_map _)]
  let ltwig : TwigPage K := ⟨l.twig.entries.take cl.length,
    sub32 (sub32 s.super.nodeSpace (cl.length * s.super.prefixSize)) (cl.length * 16)⟩
  let rtwig : TwigPage K := ⟨l.twig.entries.drop cl.length,
    sub32 (sub32 s.super.nodeSpace (cr.length * s.super.prefixSize)) (cr.length * 16)⟩
  let lpointers := cl.map (fun z => some z.1) ++ List.replicate cr.length none ++
    l.pointers.drop (cl ++ cr).length
  let rpointers := cr.map (fun z => some z.1) ++ r.pointers.drop cr.length
  let lnode' : BtNode K :=
    { lnode with pointers := some lpointers, data := some ⟨l.crc, level, .twig ltwig⟩, dirty := true }
  let rnode' : BtNode K :=
    { rnode with pointers := some rpointers, data := some ⟨r.crc, level, .twig rtwig⟩, dirty := true }
  have hfits : (cl ++ cr).length ≤ l.pointers.length ∧ cr.length ≤ r.pointers.length :=
    ⟨by omega, by omega⟩
  have hkl : (l.twig.entries.take cl.length).map Prod.fst = cl.map Prod.snd := by
    rw [List.map_take, l.keys, List.map_append, List.take_left' (List.length_map _)]
  have hkr : (l.twig.entries.drop cl.length).map Prod.fst = cr.map Prod.snd := by
    rw [List.map_drop, l.keys, List.map_append, List.drop_left' (List.length_map _)]
  refine ⟨lnode', rnode', ?_, ?_, ?_⟩
  · simp only [twigSplit, hxl, hxr, l.data, r.data, l.array, r.array, Page.twig?, hlen, ← hhalf,
      hright, htakep, hdropp, if_pos hfits, putTwig, Option.bind_eq_bind, Option.bind_some,
      Option.pure_def]
    rfl
  · refine ⟨lnode', setNode_heap_self _ _ _, ⟨⟨?_, Or.inl rfl⟩⟩⟩
    refine ⟨l.crc, ltwig, lpointers, rfl, hkl, rfl, ?_, ?_, l.narrow, ?_, fun _ => ?_⟩
    · simp only [lpointers, List.length_append, List.length_map, List.length_replicate,
        List.length_drop]
      change _ = s.super.fanout
      omega
    · change cl.length ≤ s.super.fanout
      omega
    · simp only [lpointers, List.append_assoc]
      rw [List.take_left' (List.length_map _)]
    · exact split_space hg (by omega)
  · refine ⟨rnode', ?_, ⟨⟨?_, Or.inl rfl⟩⟩⟩
    · rw [setNode_heap_ne _ hne.symm, setNode_heap_self]
    refine ⟨r.crc, rtwig, rpointers, rfl, hkr, rfl, ?_, ?_, l.narrow, ?_, fun _ => ?_⟩
    · simp only [rpointers, List.length_append, List.length_map, List.length_drop]
      change _ = s.super.fanout
      omega
    · change cr.length ≤ s.super.fanout
      omega
    · exact List.take_left' (List.length_map _)
    · exact split_space hg (by omega)

end Btree

end Carthage
