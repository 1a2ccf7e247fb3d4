import Carthage.BtreeSubtree
import Carthage.BtreeTwig

/-!
# Trees that live in memory

A handle of `btree_create` before its first synchronisation: every node has its block, is dirty
and has no region on disk, every entry of a twig has its node in memory, and no call reads the
disk or the cache. Insertions, removals and lookups keep it that way.
-/

namespace Carthage

variable {K D : Type}

theorem Page.body_of_twig {page : Page K} {twig : TwigPage K} (h : page.twig? = some twig) :
    page.body = .twig twig := by
  cases hbody : page.body with
  | leaf p => simp [Page.twig?, hbody] at h
  | twig p =>
      simp only [Page.twig?, hbody] at h
      rw [Option.some.inj h]

theorem Page.body_of_leaf {page : Page K} {leaf : LeafPage K} (h : page.leaf? = some leaf) :
    page.body = .leaf leaf := by
  cases hbody : page.body with
  | leaf p =>
      simp only [Page.leaf?, hbody] at h
      rw [Option.some.inj h]
  | twig p => simp [Page.leaf?, hbody] at h

/-- A node that was never on disk, with a node in memory for each entry of its block. -/
structure BtNode.NeverWritten (node : BtNode K) : Prop where
  blocknr : node.blocknr = 0
  onDisk : node.onDisk = false
  block : ∃ page children unused, node.data = some page ∧
    node.pointers.getD [] = List.map some children ++ List.replicate unused none ∧
    children.length = page.entries.length

theorem BtNode.NeverWritten.put {node : BtNode K} {page page' : Page K} (h : node.NeverWritten)
    (hp : node.data = some page) (hlen : page'.entries.length = page.entries.length) (b : Bool) :
    ({ node with data := some page', dirty := true, update := b } : BtNode K).NeverWritten := by
  obtain ⟨hb, ho, page₁, children, unused, hp₁, hptr, hl⟩ := h
  obtain rfl := Option.some.inj (hp.symm.trans hp₁)
  exact ⟨hb, ho, page', children, unused, rfl, hptr, hl.trans hlen.symm⟩

/-- What the calls on a tree in memory leave alone, or change in a known way. -/
structure Frame (K D : Type) where
  cache : Cache K
  disk : D
  superOffset : ℕ
  rooted : Bool
  magic : ℕ
  nodeMagic : ℕ
  itemCount : ℕ
  storedData : ℕ

namespace Frame

/-- An item with a value of `size` bytes more, in 64-bit counters. -/
def gain (f : Frame K D) (size : ℕ) : Frame K D :=
  { f with itemCount := add64 f.itemCount 1, storedData := add64 f.storedData size }

/-- An item with a value of `size` bytes less, in 64-bit counters. -/
def lose (f : Frame K D) (size : ℕ) : Frame K D :=
  { f with itemCount := sub64 f.itemCount 1, storedData := sub64 f.storedData size }

def counted (f : Frame K D) (itemCount storedData : ℕ) : Frame K D :=
  { f with itemCount := itemCount, storedData := storedData }

end Frame

namespace Btree

def frame (s : Btree K D) : Frame K D :=
  ⟨s.cache, s.disk, s.superOffset, s.root.isSome, s.super.magic, s.super.nodeMagic,
    s.super.itemCount, s.super.storedData⟩

/-- All nodes in memory were never written, and those outside of `N` are dirty. -/
structure InMemory (f : Frame K D) (N : List ℕ) (s : Btree K D) : Prop where
  frame : s.frame = f
  node : ∀ x node, s.heap x = some node → node.NeverWritten ∧ (x ∉ N → node.dirty = true)

variable {env : BtreeEnv K D} {f : Frame K D} {N : List ℕ} {s s' : Btree K D} {x y i : ℕ}
  {node node' : BtNode K} {page : Page K}

namespace InMemory

theorem congr (h : InMemory f N s) (hf : s'.frame = s.frame) (hh : s'.heap = s.heap) :
    InMemory f N s' := ⟨hf.trans h.frame, hh ▸ h.node⟩

theorem addRef (h : InMemory f N s) (x : ℕ) (n : ℤ) : InMemory f N (s.addRef x n) :=
  h.congr rfl rfl

theorem weaken (h : InMemory f N s) (x : ℕ) : InMemory f (x :: N) s :=
  ⟨h.frame, fun y node hy => ⟨(h.node y node hy).1, fun hN => (h.node y node hy).2 fun hmem =>
    hN (List.mem_cons_of_mem x hmem)⟩⟩

theorem setNode (h : InMemory f (x :: N) s) (hn : node.NeverWritten) (hd : node.dirty = true) :
    InMemory f N (s.setNode x node) := by
  refine ⟨h.frame, fun y node' hy => ?_⟩
  by_cases hyx : y = x
  · subst hyx
    rw [setNode_heap_self] at hy
    obtain rfl := Option.some.inj hy
    exact ⟨hn, fun _ => hd⟩
  · rw [setNode_heap_ne s hyx] at hy
    obtain ⟨hn', hd'⟩ := h.node y node' hy
    exact ⟨hn', fun hN => hd' fun hmem => (List.mem_cons.mp hmem).elim hyx hN⟩

/-! ## Fetching and releasing -/

theorem release (h : InMemory f N s) (hx : x ∉ N) (hrun : s.btnodeRelease env x = some s') :
    InMemory f N s' := by
  obtain ⟨node, hnode, hrun⟩ := Option.bind_eq_some_iff.mp hrun
  have hd := (h.node x node hnode).2 hx
  have hres : s' = s.addRef x (-1) := by
    simp only [hd, Bool.not_true, Bool.false_and, Bool.false_eq_true, if_false] at hrun
    split_ifs at hrun
    all_goals first | exact (Option.some.inj hrun).symm | cases hrun
  rw [hres]
  exact h.addRef x (-1)

theorem read {pointer : NodePointer} {ok : Bool} (h : InMemory f N s)
    (hrun : s.btnodeRead env x pointer = some (ok, s')) : ok = true ∧ s' = s := by
  obtain ⟨node, hnode, hrun⟩ := Option.bind_eq_some_iff.mp hrun
  obtain ⟨page, -, -, hdata, -⟩ := (h.node x node hnode).1.block
  simp only [hdata, Option.isSome_some, if_true, Option.pure_def] at hrun
  obtain ⟨rfl, rfl⟩ := Prod.mk.inj (Option.some.inj hrun)
  exact ⟨rfl, rfl⟩

theorem root (h : InMemory f N s) (hf : f.rooted = true) : ∃ r, s.root = some r := by
  have hroot : s.root.isSome = true := by
    rw [← hf, ← h.frame]
    rfl
  exact Option.isSome_iff_exists.mp hroot

theorem fetchRoot {o : Option ℕ} (h : InMemory f N s) (hf : f.rooted = true)
    (hrun : s.btreeFetchRoot env = some (o, s')) :
    ∃ r, s.root = some r ∧ o = some r ∧ InMemory f N s' := by
  obtain ⟨r, hr⟩ := h.root hf
  simp only [btreeFetchRoot, hr] at hrun
  obtain ⟨⟨ok, s₁⟩, hread, hrun⟩ := Option.bind_eq_some_iff.mp hrun
  obtain ⟨rfl, rfl⟩ := (h.addRef r 1).read hread
  obtain ⟨rfl, rfl⟩ := Prod.mk.inj (Option.some.inj hrun)
  exact ⟨r, hr, rfl, h.addRef r 1⟩

theorem fetchTwig {o : Option ℕ} (h : InMemory f N s)
    (hrun : s.btnodeFetchTwig env x i = some (o, s')) : ∃ c, o = some c ∧ InMemory f N s' := by
  obtain ⟨node, hnode, hrun⟩ := Option.bind_eq_some_iff.mp hrun
  obtain ⟨page, hpage, hrun⟩ := Option.bind_eq_some_iff.mp hrun
  obtain ⟨twig, htwig, hrun⟩ := Option.bind_eq_some_iff.mp hrun
  obtain ⟨pointers, hpointers, hrun⟩ := Option.bind_eq_some_iff.mp hrun
  obtain ⟨entry, hentry, hrun⟩ := Option.bind_eq_some_iff.mp hrun
  obtain ⟨slot, hslot, hrun⟩ := Option.bind_eq_some_iff.mp hrun
  obtain ⟨page', children, unused, hpage', hptr, hlen⟩ := (h.node x node hnode).1.block
  obtain rfl := Option.some.inj (hpage.symm.trans hpage')
  have hentries : page.entries = twig.entries := by
    rw [Page.entries, Page.body_of_twig htwig]
  have hlt : i < children.length := by
    rw [hlen, hentries]
    exact (List.getElem?_eq_some_iff.mp hentry).1
  rw [hpointers, Option.getD_some] at hptr
  obtain ⟨c, rfl⟩ : ∃ c, slot = some c := by
    rw [hptr, List.getElem?_append_left (by simpa using hlt), List.getElem?_map,
      List.getElem?_eq_getElem hlt, Option.map_some] at hslot
    exact ⟨_, (Option.some.inj hslot).symm⟩
  obtain ⟨⟨ok, s₁⟩, hread, hrun⟩ := Option.bind_eq_some_iff.mp hrun
  obtain ⟨rfl, rfl⟩ := (h.addRef c 1).read hread
  obtain ⟨rfl, rfl⟩ := Prod.mk.inj (Option.some.inj hrun)
  exact ⟨c, rfl, h.addRef c 1⟩

/-! ## Changing a node -/

theorem put {page' : Page K} (h : InMemory f (x :: N) s) (hn : node.NeverWritten)
    (hp : node.data = some page) (hlen : page'.entries.length = page.entries.length) :
    InMemory f N (s.setNode x { node with data := some page', dirty := true }) :=
  h.setNode (hn.put hp hlen node.update) rfl

theorem putLeaf {leaf leaf' : LeafPage K} (h : InMemory f (x :: N) s) (hn : node.NeverWritten)
    (hp : node.data = some page) (hleaf : page.leaf? = some leaf) :
    InMemory f N (s.putLeaf x node page leaf') := by
  refine h.put hn hp ?_
  rw [Page.entries, Page.entries, Page.body_of_leaf hleaf]

theorem update (h : InMemory f N s) (hx : x ∉ N) (hrun : s.setToUpdate x = some s') :
    InMemory f N s' := by
  obtain ⟨node, hnode, hrun⟩ := Option.bind_eq_some_iff.mp hrun
  obtain rfl := Option.some.inj hrun
  obtain ⟨⟨hb, ho, hblock⟩, hd⟩ := h.node x node hnode
  exact (h.weaken x).setNode ⟨hb, ho, hblock⟩ (hd hx)

theorem twigReplace {key : K} {value : NodePointer} (h : InMemory f N s)
    (hrun : s.twigReplace x i key value = some s') : InMemory f N s' := by
  obtain ⟨node, hnode, hrun⟩ := Option.bind_eq_some_iff.mp hrun
  obtain ⟨page, hpage, hrun⟩ := Option.bind_eq_some_iff.mp hrun
  obtain ⟨twig, htwig, hrun⟩ := Option.bind_eq_some_iff.mp hrun
  split_ifs at hrun
  obtain rfl := Option.some.inj hrun
  refine (h.weaken x).put (h.node x node hnode).1 hpage ?_
  rw [Page.entries, Page.entries, Page.body_of_twig htwig, List.length_set]

theorem twig {twig : TwigPage K} {pointers : List (Option ℕ)} (h : InMemory f N s)
    (hx : s.heap x = some node) (hp : node.data = some page) (ht : page.twig? = some twig)
    (hptr : node.pointers = some pointers) :
    ∃ children unused, pointers = List.map some children ++ List.replicate unused none ∧
      children.length = twig.entries.length := by
  obtain ⟨page', children, unused, hp', hptr', hlen⟩ := (h.node x node hx).1.block
  obtain rfl := Option.some.inj (hp.symm.trans hp')
  rw [hptr, Option.getD_some] at hptr'
  rw [Page.entries, Page.body_of_twig ht] at hlen
  exact ⟨children, unused, hptr', hlen⟩

theorem putTwig {twig : TwigPage K} {children : List ℕ} {unused : ℕ} (h : InMemory f (x :: N) s)
    (hn : node.NeverWritten) (hlen : children.length = twig.entries.length) :
    InMemory f N (s.putTwig x { node with
      pointers := some (List.map some children ++ List.replicate unused none) } page twig) := by
  exact h.setNode ⟨hn.blocknr, hn.onDisk, _, children, unused, rfl, rfl, hlen⟩ rfl

theorem twigInsertChild [LinearOrder K] {key : K} {child : ℕ} (h : InMemory f (x :: N) s)
    (hrun : s.twigInsertChild x i key child = some s') : InMemory f N s' := by
  obtain ⟨s₁, hinsert, hset⟩ := Option.bind_eq_some_iff.mp hrun
  obtain ⟨node, hnode, hinsert⟩ := Option.bind_eq_some_iff.mp hinsert
  obtain ⟨page, hpage, hinsert⟩ := Option.bind_eq_some_iff.mp hinsert
  obtain ⟨twig, htwig, hinsert⟩ := Option.bind_eq_some_iff.mp hinsert
  obtain ⟨pointers, hptr, hinsert⟩ := Option.bind_eq_some_iff.mp hinsert
  dsimp only at hinsert
  split_ifs at hinsert with hroom
  obtain rfl := Option.some.inj hinsert
  obtain ⟨children, unused, rfl, hlen⟩ := h.twig hnode hpage htwig hptr
  obtain ⟨m, rfl⟩ : ∃ m, unused = m + 1 := ⟨unused - 1, by
    have := hroom.2
    rw [List.length_append, List.length_map, List.length_replicate] at this
    omega⟩
  have hi : i ≤ children.length := hlen ▸ hroom.1
  have hmove : (moveSlots (List.map some children ++ List.replicate (m + 1) none) (i + 1) i
      (twig.entries.length - i)).set i (some child) =
      List.map some (children.insertIdx i child) ++ List.replicate m none := by
    have hparts := moveSlots_set (List.map some (children.take i)) (List.map some (children.drop i))
      (List.replicate m none) none (some child)
    rw [List.length_map, List.length_map, List.length_take, List.length_drop, min_eq_left hi,
      ← List.map_append, List.take_append_drop, ← List.replicate_succ] at hparts
    have hmid := insertIdx_middle (children.take i) (children.drop i) child
    rw [List.take_append_drop, List.length_take, min_eq_left hi] at hmid
    rw [← hlen, hparts, hmid]
    simp
  simp only [setPointer, Btree.putTwig, setNode_heap_self, Option.bind_eq_bind, Option.bind_some,
    Option.pure_def, setNode_setNode, hmove] at hset
  split_ifs at hset
  obtain rfl := Option.some.inj hset
  refine h.putTwig (h.node x node hnode).1 ?_
  rw [List.length_insertIdx_of_le_length hi, List.length_insertIdx_of_le_length (hlen ▸ hi), hlen]

theorem moveSlots_erase {children : List ℕ} {m : ℕ} (hi : i + 1 < children.length) :
    (moveSlots (List.map some children ++ List.replicate (m + 1) none) i (i + 1)
      (children.length - i)).set (children.length - 1) none =
      List.map some (children.eraseIdx i) ++ List.replicate (m + 2) none := by
  have htake : (List.map some children ++ List.replicate (m + 1) none).take i =
      List.map some (children.take i) := by
    rw [List.take_append_of_le_length (by simp; omega), List.map_take]
  have hdrop : ((List.map some children ++ List.replicate (m + 1) none).drop (i + 1)).take
      (children.length - i) = List.map some (children.drop (i + 1)) ++ [none] := by
    rw [List.drop_append_of_le_length (by simp; omega), ← List.map_drop, List.replicate_succ,
      List.append_cons, List.take_left']
    simp
    omega
  have hrest : (List.map some children ++ List.replicate (m + 1) (none : Option ℕ)).drop
      (i + (children.length - i)) = List.replicate (m + 1) none :=
    List.drop_left' (by simp; omega)
  have hlast : children.length - 1 = (List.map some (children.eraseIdx i)).length := by
    rw [List.length_map, List.length_eraseIdx_of_lt (by omega)]
  rw [moveSlots, htake, hdrop, hrest, ← List.append_assoc, ← List.map_append,
    ← List.eraseIdx_eq_take_drop_succ, hlast, List.append_assoc, List.singleton_append,
    List.set_append_right _ _ le_rfl, Nat.sub_self, List.set_cons_zero, ← List.replicate_succ]

theorem twigRemove (h : InMemory f N s) (hrun : s.twigRemove x i = some s') : InMemory f N s' := by
  obtain ⟨node, hnode, hrun⟩ := Option.bind_eq_some_iff.mp hrun
  obtain ⟨page, hpage, hrun⟩ := Option.bind_eq_some_iff.mp hrun
  obtain ⟨twig, htwig, hrun⟩ := Option.bind_eq_some_iff.mp hrun
  obtain ⟨pointers, hptr, hrun⟩ := Option.bind_eq_some_iff.mp hrun
  obtain ⟨children, unused, rfl, hlen⟩ := h.twig hnode hpage htwig hptr
  dsimp only at hrun
  rw [← hlen] at hrun
  split_ifs at hrun with hi hroom hroom
  · obtain ⟨m, rfl⟩ : ∃ m, unused = m + 1 := ⟨unused - 1, by
      rw [List.length_append, List.length_map, List.length_replicate] at hroom
      omega⟩
    obtain rfl := Option.some.inj hrun
    rw [moveSlots_erase hi]
    refine (h.weaken x).putTwig (h.node x node hnode).1 ?_
    rw [List.length_eraseIdx_of_lt (by omega), List.length_eraseIdx_of_lt (by omega), hlen]
  · obtain rfl := Option.some.inj hrun
    have hset : (List.map some children ++ List.replicate unused none).set (children.length - 1)
        none = List.map some children.dropLast ++ List.replicate (unused + 1) none := by
      rcases List.eq_nil_or_concat children with rfl | ⟨init, last, rfl⟩
      · exact absurd hroom.1 (lt_irrefl 0)
      · simp [List.set_append_right, List.replicate_succ]
    rw [hset]
    refine (h.weaken x).putTwig (h.node x node hnode).1 ?_
    rw [List.length_dropLast, List.length_dropLast, hlen]

theorem twigSplit {left right : ℕ} (h : InMemory f (right :: N) s)
    (hempty : ∀ page, s.page right = some page → page.entries = [])
    (hrun : s.twigSplit left right = some s') : InMemory f N s' := by
  obtain ⟨lnode, hlnode, hrun⟩ := Option.bind_eq_some_iff.mp hrun
  obtain ⟨lpage, hlpage, hrun⟩ := Option.bind_eq_some_iff.mp hrun
  obtain ⟨ltwig, hltwig, hrun⟩ := Option.bind_eq_some_iff.mp hrun
  obtain ⟨lpointers, hlptr, hrun⟩ := Option.bind_eq_some_iff.mp hrun
  obtain ⟨rnode, hrnode, hrun⟩ := Option.bind_eq_some_iff.mp hrun
  obtain ⟨rpage, hrpage, hrun⟩ := Option.bind_eq_some_iff.mp hrun
  obtain ⟨rpointers, hrptr, hrun⟩ := Option.bind_eq_some_iff.mp hrun
  obtain ⟨children, unused, rfl, hlen⟩ := h.twig hlnode hlpage hltwig hlptr
  have hright : ∃ free, rpointers = List.replicate free none := by
    obtain ⟨page, kids, free, hp, hptr, hkids⟩ := (h.node right rnode hrnode).1.block
    rw [hempty page (by simp [Btree.page, hrnode, hp]), List.length_nil] at hkids
    rw [hrptr, Option.getD_some, List.eq_nil_of_length_eq_zero hkids] at hptr
    exact ⟨free, hptr⟩
  obtain ⟨free, rfl⟩ := hright
  dsimp only at hrun
  rw [← hlen] at hrun
  split_ifs at hrun
  obtain rfl := Option.some.inj hrun
  have hhalf : children.length / 2 ≤ children.length := Nat.div_le_self _ _
  have hmoved : ((List.map some children ++ List.replicate unused none).drop
      (children.length / 2)).take (children.length - children.length / 2) =
      List.map some (children.drop (children.length / 2)) := by
    rw [List.drop_append_of_le_length (by simpa using hhalf), ← List.map_drop,
      List.take_left' (by simp)]
  have hkept : (List.map some children ++ List.replicate unused none).take (children.length / 2) =
      List.map some (children.take (children.length / 2)) := by
    rw [List.take_append_of_le_length (by simpa using hhalf), List.map_take]
  have hrest : (List.map some children ++ List.replicate unused (none : Option ℕ)).drop
      children.length = List.replicate unused none := List.drop_left' (by simp)
  rw [hmoved, hkept, hrest, List.drop_replicate, List.append_assoc, ← List.replicate_add]
  refine ((h.putTwig (h.node right rnode hrnode).1 ?_).weaken left).putTwig
    (h.node left lnode hlnode).1 ?_
  · rw [List.length_drop, List.length_drop, hlen]
  · rw [List.length_take, List.length_take, hlen]

theorem leafInsert {key : K} {value : List UInt8} (h : InMemory f (x :: N) s)
    (hrun : s.leafInsert x i key value = some s') : InMemory (f.gain value.length) N s' := by
  obtain ⟨node, hnode, hrun⟩ := Option.bind_eq_some_iff.mp hrun
  obtain ⟨page, hpage, hrun⟩ := Option.bind_eq_some_iff.mp hrun
  obtain ⟨leaf, hleaf, hrun⟩ := Option.bind_eq_some_iff.mp hrun
  obtain ⟨leaf', -, hrun⟩ := Option.bind_eq_some_iff.mp hrun
  obtain rfl := Option.some.inj hrun
  have hput : InMemory f N (s.putLeaf x node page leaf') :=
    h.putLeaf (h.node x node hnode).1 hpage hleaf
  exact ⟨congrArg (fun f => f.gain value.length) hput.frame, hput.node⟩

theorem leafRemove (h : InMemory f N s) (hrun : s.leafRemove x i = some s') :
    ∃ page leaf slot, s.page x = some page ∧ page.leaf? = some leaf ∧ leaf.slots[i]? = some slot ∧
      InMemory (f.lose slot.size) N s' := by
  obtain ⟨node, hnode, hrun⟩ := Option.bind_eq_some_iff.mp hrun
  obtain ⟨page, hpage, hrun⟩ := Option.bind_eq_some_iff.mp hrun
  obtain ⟨leaf, hleaf, hrun⟩ := Option.bind_eq_some_iff.mp hrun
  obtain ⟨slot, hslot, hrun⟩ := Option.bind_eq_some_iff.mp hrun
  obtain ⟨leaf', -, hrun⟩ := Option.bind_eq_some_iff.mp hrun
  obtain rfl := Option.some.inj hrun
  have hput : InMemory f N (s.putLeaf x node page leaf') :=
    (h.weaken x).putLeaf (h.node x node hnode).1 hpage hleaf
  refine ⟨page, leaf, slot, ?_, hleaf, hslot, congrArg (fun f => f.lose slot.size) hput.frame,
    hput.node⟩
  simp only [Btree.page, hnode, hpage, Option.bind_eq_bind, Option.bind_some]

theorem leafReplace {size : ℕ} (h : InMemory f N s) (hrun : s.leafReplace x i size = some s') :
    InMemory f N s' := by
  obtain ⟨node, hnode, hrun⟩ := Option.bind_eq_some_iff.mp hrun
  obtain ⟨page, hpage, hrun⟩ := Option.bind_eq_some_iff.mp hrun
  obtain ⟨leaf, hleaf, hrun⟩ := Option.bind_eq_some_iff.mp hrun
  obtain ⟨leaf', -, hrun⟩ := Option.bind_eq_some_iff.mp hrun
  obtain rfl := Option.some.inj hrun
  exact (h.weaken x).putLeaf (h.node x node hnode).1 hpage hleaf

theorem leafInlineReplace {value : List UInt8} (h : InMemory f N s)
    (hrun : s.leafInlineReplace x i value = some s') : InMemory f N s' := by
  obtain ⟨node, hnode, hrun⟩ := Option.bind_eq_some_iff.mp hrun
  obtain ⟨page, hpage, hrun⟩ := Option.bind_eq_some_iff.mp hrun
  obtain ⟨leaf, hleaf, hrun⟩ := Option.bind_eq_some_iff.mp hrun
  obtain ⟨leaf', -, hrun⟩ := Option.bind_eq_some_iff.mp hrun
  obtain rfl := Option.some.inj hrun
  exact (h.weaken x).putLeaf (h.node x node hnode).1 hpage hleaf

theorem leafSplit {left right : ℕ} (h : InMemory f (right :: N) s)
    (hrun : s.leafSplit left right = some s') : InMemory f N s' := by
  obtain ⟨lnode, hlnode, hrun⟩ := Option.bind_eq_some_iff.mp hrun
  obtain ⟨lpage, hlpage, hrun⟩ := Option.bind_eq_some_iff.mp hrun
  obtain ⟨lleaf, hlleaf, hrun⟩ := Option.bind_eq_some_iff.mp hrun
  obtain ⟨rnode, hrnode, hrun⟩ := Option.bind_eq_some_iff.mp hrun
  obtain ⟨rpage, hrpage, hrun⟩ := Option.bind_eq_some_iff.mp hrun
  obtain ⟨rleaf, hrleaf, hrun⟩ := Option.bind_eq_some_iff.mp hrun
  obtain ⟨⟨lleaf', rleaf'⟩, -, hrun⟩ := Option.bind_eq_some_iff.mp hrun
  obtain rfl := Option.some.inj hrun
  have hright : InMemory f N (s.putLeaf right rnode rpage rleaf') :=
    h.putLeaf (h.node right rnode hrnode).1 hrpage hrleaf
  exact (hright.weaken left).putLeaf (h.node left lnode hlnode).1 hlpage hlleaf

theorem alloc (hg : ∀ n, env.granted n = true) (h : InMemory f N s) (level : ℕ) :
    ∃ s', s.btnodeAlloc env level = (some s.fresh, s') ∧ InMemory f (s.fresh :: N) s' ∧
      ∀ page, s'.page s.fresh = some page → page.entries = [] ∧ page.keys = [] := by
  let node := emptyNode env.uninit s level
  have hentries : ∀ page, node.data = some page → page.entries = [] ∧ page.keys = [] := by
    intro page hp
    obtain rfl := Option.some.inj hp
    by_cases hl : level = 1 <;> simp [Page.entries, Page.keys, LeafPage.keys, hl]
  have hpointers : ∃ m, node.pointers.getD [] = List.replicate m none := by
    by_cases hl : level = 1
    · exact ⟨0, by simp [node, emptyNode, hl]⟩
    · exact ⟨s.super.fanout, by simp [node, emptyNode, hl]⟩
  obtain ⟨m, hm⟩ := hpointers
  have hnode : node.NeverWritten :=
    ⟨rfl, rfl, _, [], m, rfl, hm, (congrArg List.length (hentries _ rfl).1).symm⟩
  obtain ⟨s', halloc, hheap, hframe⟩ : ∃ s', s.btnodeAlloc env level = (some s.fresh, s') ∧
      s'.heap = Function.update s.heap s.fresh (some node) ∧ s'.frame = s.frame := by
    simp only [btnodeAlloc, btnodeLevelAlloc, malloc, hg, if_true, Function.update_idem]
    exact ⟨_, rfl, rfl, rfl⟩
  refine ⟨s', halloc, ⟨hframe.trans h.frame, fun y node' hy => ?_⟩, fun page hp => ?_⟩
  · rw [hheap] at hy
    by_cases hyx : y = s.fresh
    · subst hyx
      rw [Function.update_self] at hy
      obtain rfl := Option.some.inj hy
      exact ⟨hnode, fun hN => absurd List.mem_cons_self hN⟩
    · rw [Function.update_of_ne hyx] at hy
      obtain ⟨hn, hd⟩ := h.node y node' hy
      exact ⟨hn, fun hN => hd fun hmem => hN (List.mem_cons_of_mem _ hmem)⟩
  · rw [Btree.page, hheap, Function.update_self] at hp
    exact hentries page hp

variable [LinearOrder K] {key : K} {level : ℕ}

theorem lookupLoop {fuel : ℕ} {o o' : Option ℕ} {place place' : Place} (h : InMemory f [] s)
    (hrun : lookupLoop env key level fuel o place s = some (o', place', s')) :
    InMemory f [] s' := by
  induction fuel generalizing s o place with
  | zero =>
      cases o with
      | none =>
          obtain rfl := (Prod.mk.inj (Prod.mk.inj (Option.some.inj hrun)).2).2
          exact h
      | some x => cases hrun
  | succ fuel ih =>
      cases o with
      | none =>
          obtain rfl := (Prod.mk.inj (Prod.mk.inj (Option.some.inj hrun)).2).2
          exact h
      | some x =>
          obtain ⟨place₁, -, hrun⟩ := Option.bind_eq_some_iff.mp hrun
          obtain ⟨page, -, hrun⟩ := Option.bind_eq_some_iff.mp hrun
          split_ifs at hrun with hl h1
          · obtain rfl := (Prod.mk.inj (Prod.mk.inj (Option.some.inj hrun)).2).2
            exact h
          · obtain ⟨s₁, hrelease, hrun⟩ := Option.bind_eq_some_iff.mp hrun
            obtain rfl := (Prod.mk.inj (Prod.mk.inj (Option.some.inj hrun)).2).2
            exact h.release List.not_mem_nil hrelease
          all_goals
            obtain ⟨⟨under, s₁⟩, hfetch, hrun⟩ := Option.bind_eq_some_iff.mp hrun
            obtain ⟨c, rfl, h₁⟩ := h.fetchTwig hfetch
            obtain ⟨s₂, hrelease, hrun⟩ := Option.bind_eq_some_iff.mp hrun
            exact ih (h₁.release List.not_mem_nil hrelease) hrun

theorem lookupLevel {o : Option ℕ} {place place' : Place} (h : InMemory f [] s)
    (hf : f.rooted = true)
    (hrun : s.btreeLookupLevel env key level place = some (o, place', s')) : InMemory f [] s' := by
  obtain ⟨⟨root, s₁⟩, hfetch, hrun⟩ := Option.bind_eq_some_iff.mp hrun
  obtain ⟨r, -, -, h₁⟩ := h.fetchRoot hf hfetch
  exact h₁.lookupLoop hrun

end InMemory

end Btree

end Carthage
