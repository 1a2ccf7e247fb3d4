import Carthage.BtreePersist
import Carthage.LevelledForest

/-!
# Working with a saved tree

After `btree_sync` a tree is on disk, and lookups read nodes of it again. A later `btree_sync` has
nothing to write, and `btree_close` frees what was read: no reference is left, and every node has
given its block to the cache.
-/

namespace Carthage

/-! ## The size of the cache -/

namespace Cache

variable {K : Type} {c c' : Cache K} {i blocknr : ℕ} {block : Option (Page K)}

theorem unchain_size {fuel : ℕ} {p : Option ℕ} (h : c.unchain i fuel p = some c') :
    c'.size = c.size := by
  induction fuel generalizing p with
  | zero =>
      cases p with
      | none =>
          obtain rfl := Option.some.inj h
          rfl
      | some p => cases h
  | succ fuel ih =>
      cases p with
      | none =>
          obtain rfl := Option.some.inj h
          rfl
      | some p =>
          unfold unchain at h
          split_ifs at h
          · obtain rfl := Option.some.inj h
            rfl
          · exact ih h

theorem unhash_size (h : c.unhash i = some c') : c'.size = c.size := by
  simp only [unhash] at h
  split_ifs at h
  · obtain rfl := Option.some.inj h
    rfl
  · exact unchain_size h

theorem lookup_size (h : c.lookup blocknr = some (block, c')) : c'.size = c.size := by
  unfold lookup at h
  split_ifs at h
  · obtain ⟨-, rfl⟩ := Prod.mk.inj (Option.some.inj h)
    rfl
  · obtain ⟨o, -, h⟩ := Option.bind_eq_some_iff.mp h
    cases o with
    | none =>
        obtain ⟨-, rfl⟩ := Prod.mk.inj (Option.some.inj h)
        rfl
    | some p =>
        obtain ⟨c₁, heject, h⟩ := Option.bind_eq_some_iff.mp h
        obtain ⟨c₂, hunhash, heject⟩ := Option.bind_eq_some_iff.mp heject
        obtain rfl := Option.some.inj heject
        obtain ⟨-, rfl⟩ := Prod.mk.inj (Option.some.inj h)
        have hsize := unhash_size hunhash
        exact hsize

theorem add_size (h : c.add blocknr block = some c') : c'.size = c.size := by
  unfold add at h
  split_ifs at h
  · obtain rfl := Option.some.inj h
    rfl
  · obtain ⟨j, -, h⟩ := Option.bind_eq_some_iff.mp h
    dsimp only at h
    split_ifs at h
    · obtain ⟨c₁, hunhash, h⟩ := Option.bind_eq_some_iff.mp h
      obtain rfl := Option.some.inj h
      have hsize := unhash_size hunhash
      exact hsize
    · obtain rfl := Option.some.inj h
      rfl

end Cache

namespace Btree

variable {K D : Type} {env : BtreeEnv K D} {s s' b : Btree K D} {x y n : ℕ} {lev : ℕ → ℕ}
  {node node' : BtNode K} {page : Page K}

/-! ## What reading and releasing a node does -/

/-- The block and the clean flags of a node change, and the cache with the requests for memory. -/
structure Loads (s s' : Btree K D) (x : ℕ) (node node' : BtNode K) : Prop where
  pointers : node'.pointers = node.pointers
  dirty : node.dirty = false → node'.dirty = false
  update : node.update = false → node'.update = false
  state : ∃ cache m, s' = { s with cache := cache, mallocs := m }.setNode x node' ∧
    cache.size = s.cache.size

theorem setNode_self (hx : s.heap x = some node) : s.setNode x node = s := by
  unfold setNode
  rw [← hx, Function.update_eq_self]

theorem btcacheAdd_state {blocknr : ℕ} {block : Option (Page K)}
    (hrun : s.btcacheAdd env blocknr block = some s') :
    ∃ cache m, s' = { s with cache := cache, mallocs := m } ∧ cache.size = s.cache.size := by
  unfold btcacheAdd malloc at hrun
  dsimp only at hrun
  split_ifs at hrun
  · obtain ⟨cache, hadd, hrun⟩ := Option.bind_eq_some_iff.mp hrun
    exact ⟨cache, _, (Option.some.inj hrun).symm, Cache.add_size hadd⟩
  · exact ⟨s.cache, _, (Option.some.inj hrun).symm, rfl⟩
  · obtain ⟨cache, hadd, hrun⟩ := Option.bind_eq_some_iff.mp hrun
    exact ⟨cache, s.mallocs, (Option.some.inj hrun).symm, Cache.add_size hadd⟩

theorem btnodeRead_loads {pointer : NodePointer} (hx : s.heap x = some node)
    (hrun : s.btnodeRead env x pointer = some (true, s')) : ∃ node', Loads s s' x node node' := by
  simp only [btnodeRead, hx, Option.bind_eq_bind, Option.bind_some] at hrun
  split_ifs at hrun
  · obtain rfl := (Prod.mk.inj (Option.some.inj hrun)).2
    exact ⟨node, rfl, id, id, s.cache, s.mallocs, (setNode_self hx).symm, rfl⟩
  obtain ⟨⟨block, cache⟩, hlook, hrun⟩ := Option.bind_eq_some_iff.mp hrun
  have hsize := Cache.lookup_size hlook
  by_cases hb : block.isSome = true
  · rw [if_pos hb] at hrun
    obtain ⟨-, rfl⟩ := Prod.mk.inj (Option.some.inj hrun)
    exact ⟨{ node with data := block }, rfl, id, id, cache, s.mallocs, rfl, hsize⟩
  by_cases hm : env.granted s.mallocs = true
  swap
  · simp [hb, malloc, setNode, hm] at hrun
  simp only [hb, malloc, setNode, hm, Bool.not_true, Bool.false_eq_true, if_false] at hrun
  split at hrun
  · next page _ =>
      split_ifs at hrun
      · cases (Prod.mk.inj (Option.some.inj hrun)).1
      · cases (Prod.mk.inj (Option.some.inj hrun)).1
      · obtain ⟨-, rfl⟩ := Prod.mk.inj (Option.some.inj hrun)
        refine ⟨⟨node.pointers, some page, pointer.blocknr, pointer.size, false, false, false⟩, rfl,
          fun _ => rfl, fun _ => rfl, cache, s.mallocs + 1, ?_, hsize⟩
        simp only [setNode, Function.update_idem]
  · cases (Prod.mk.inj (Option.some.inj hrun)).1

theorem btnodeFetch_state {level : ℕ} {pointer : NodePointer}
    (hrun : s.btnodeFetch env level pointer = some (some y, s')) :
    y = s.fresh ∧ ∃ node cache m, s' = { s with
        heap := Function.update s.heap y (some node), refs := Function.update s.refs y 1,
        fresh := s.fresh + 1, cache := cache, mallocs := m } ∧
      cache.size = s.cache.size ∧ node.dirty = false ∧ node.update = false ∧
      (node.pointers.getD []).reduceOption = [] := by
  unfold btnodeFetch btnodeLevelAlloc malloc at hrun
  by_cases hm : env.granted s.mallocs = true
  swap
  · simp [hm] at hrun
  simp only [hm, if_true] at hrun
  obtain ⟨⟨ok, s₁⟩, hread, hrun⟩ := Option.bind_eq_some_iff.mp hrun
  cases ok with
  | false => simp at hrun
  | true =>
      obtain ⟨hy, rfl⟩ := Prod.mk.inj (Option.some.inj hrun)
      obtain rfl := Option.some.inj hy
      obtain ⟨node, hpointers, hdirty, hupdate, cache, m, rfl, hsize⟩ :=
        btnodeRead_loads (Function.update_self _ _ _) hread
      refine ⟨rfl, node, cache, m, ?_, hsize, hdirty rfl, hupdate rfl, ?_⟩
      · simp only [setNode, Function.update_idem]
      · rw [hpointers]
        dsimp only
        split_ifs
        · rfl
        · exact List.reduceOption_replicate_none

/-! ## The nodes that lookups have read -/

/-- The nodes with a level were read since the state was `b`. They are clean, and hold their blocks
only while they are referenced. -/
structure Loaded (b : Btree K D) (lev : ℕ → ℕ) (s : Btree K D) : Prop where
  forest : Levelled s.childNodes maxLevels s.root lev
  node : ∀ x, lev x ≠ 0 → ∃ node, s.heap x = some node ∧ node.dirty = false ∧
    node.update = false ∧ (node.data = none ∨ 0 < s.refs x)
  fresh : ∀ x, s.fresh ≤ x → lev x = 0 ∧ s.heap x = none
  other : ∀ x, lev x = 0 → s.heap x = b.heap x
  new : ∀ x, lev x ≠ 0 → b.heap x = none
  caching : s.cache.size ≠ 0
  refs : 0 ≤ s.refs
  disk : s.disk = b.disk
  super : s.super = b.super
  superOffset : s.superOffset = b.superOffset

namespace Loaded

theorem addRef (h : Loaded b lev s) (x : ℕ) : Loaded b lev (s.addRef x 1) := by
  refine ⟨h.forest, fun y hy => ?_, h.fresh, h.other, h.new, h.caching, addRef_nonneg h.refs x,
    h.disk, h.super, h.superOffset⟩
  obtain ⟨node, hn, hdirty, hupdate, hdata⟩ := h.node y hy
  refine ⟨node, hn, hdirty, hupdate, hdata.imp_right fun hpos => ?_⟩
  by_cases hyx : y = x
  · subst hyx
    rw [addRef_self]
    omega
  · simpa [Btree.addRef, Pi.single_eq_of_ne hyx] using hpos

theorem loads (h : Loaded b lev s) (hlev : lev x ≠ 0) (hx : s.heap x = some node)
    (hl : Loads s s' x node node') (hdata : node'.data = none ∨ 0 < s.refs x) :
    Loaded b lev s' := by
  obtain ⟨node₁, hx₁, hdirty, hupdate, -⟩ := h.node x hlev
  obtain rfl := Option.some.inj (hx.symm.trans hx₁)
  obtain ⟨hp, hd, hu, cache, m, rfl, hsize⟩ := hl
  have hforest : ∀ y, ({ s with cache := cache, mallocs := m }.setNode x node').childNodes y =
      s.childNodes y := childNodes_setNode (s := { s with cache := cache, mallocs := m }) hx hp
  refine ⟨?_, fun y hy => ?_, fun y hy => ?_, fun y hy => ?_, h.new, ?_, h.refs, h.disk, h.super,
    h.superOffset⟩
  · have hch : ({ s with cache := cache, mallocs := m }.setNode x node').childNodes =
        s.childNodes := funext hforest
    rw [hch]
    exact h.forest
  · by_cases hyx : y = x
    · subst hyx
      exact ⟨node', setNode_heap_self _ _ _, hd hdirty, hu hupdate, hdata⟩
    · obtain ⟨node₂, hn, hrest⟩ := h.node y hy
      exact ⟨node₂, (setNode_heap_ne _ hyx _).trans hn, hrest⟩
  · obtain ⟨hzero, hnone⟩ := h.fresh y hy
    have hyx : y ≠ x := fun heq => hlev (heq ▸ hzero)
    exact ⟨hzero, (setNode_heap_ne _ hyx _).trans hnone⟩
  · have hyx : y ≠ x := fun heq => hlev (heq ▸ hy)
    exact (setNode_heap_ne _ hyx _).trans (h.other y hy)
  · change cache.size ≠ 0
    rw [hsize]
    exact h.caching

theorem rooted (h : Loaded b lev s) (hx : lev x ≠ 0) : s.root ≠ none := fun hno =>
  hx ((hno ▸ h.forest).unrooted x)

theorem dropRef (h : Loaded b lev s) (hx : s.heap x = some node) (hpos : 0 < s.refs x)
    (hdata : node.data = none ∨ 1 < s.refs x) : Loaded b lev (s.addRef x (-1)) := by
  have hself : (s.addRef x (-1)).refs x = s.refs x - 1 := by
    rw [addRef_self]
    omega
  have hleft : ∀ y, y ≠ x → (s.addRef x (-1)).refs y = s.refs y := fun y hy => by
    simp [Btree.addRef, Pi.single_eq_of_ne hy]
  refine ⟨h.forest, fun y hy => ?_, h.fresh, h.other, h.new, h.caching, fun y => ?_, h.disk, h.super,
    h.superOffset⟩
  · obtain ⟨node', hn, hd, hu, hold⟩ := h.node y hy
    refine ⟨node', hn, hd, hu, ?_⟩
    by_cases hyx : y = x
    · subst hyx
      obtain rfl := Option.some.inj (hx.symm.trans hn)
      rw [hself]
      exact hdata.imp_right fun hmore => by omega
    · rwa [hleft y hyx]
  · by_cases hyx : y = x
    · rw [hyx, hself]
      change 0 ≤ s.refs x - 1
      omega
    · rw [hleft y hyx]
      exact h.refs y

theorem release (h : Loaded b lev s) (hlev : lev x ≠ 0)
    (hrun : s.btnodeRelease env x = some s') :
    Loaded b lev s' ∧ s'.refs = s.refs + Pi.single x (-1) ∧ s'.root = s.root := by
  obtain ⟨node, hx, hrun⟩ := Option.bind_eq_some_iff.mp hrun
  obtain ⟨node₁, hx₁, hdirty, -, -⟩ := h.node x hlev
  obtain rfl := Option.some.inj (hx.symm.trans hx₁)
  by_cases hpos : s.refs x ≤ 0
  · simp [hpos] at hrun
  rw [if_neg hpos] at hrun
  have hself : (s.addRef x (-1)).refs x = s.refs x - 1 := by
    rw [addRef_self]
    omega
  dsimp only at hrun
  by_cases hmore : (s.addRef x (-1)).refs x > 0
  · rw [if_pos hmore] at hrun
    obtain rfl := Option.some.inj hrun
    exact ⟨h.dropRef hx (by omega) (Or.inr (by omega)), rfl, rfl⟩
  · have hkeep : (!node.dirty && decide ((s.addRef x (-1)).cache.size ≠ 0)) = true := by
      rw [hdirty]
      exact decide_eq_true h.caching
    rw [if_neg hmore, if_pos hkeep] at hrun
    obtain ⟨s₁, hadd, hrun⟩ := Option.bind_eq_some_iff.mp hrun
    obtain rfl := Option.some.inj hrun
    obtain ⟨cache, m, rfl, hsize⟩ := btcacheAdd_state hadd
    have hl : Loads s ({ s with cache := cache, mallocs := m }.setNode x { node with data := none })
        x node { node with data := none } := ⟨rfl, id, id, cache, m, rfl, hsize⟩
    have hloaded := h.loads hlev hx hl (Or.inl rfl)
    exact ⟨hloaded.dropRef (setNode_heap_self _ _ _) (not_le.mp hpos) (Or.inl rfl), rfl, rfl⟩

theorem hold {pointer : NodePointer} (h : Loaded b lev s) (hlev : lev x ≠ 0)
    (hrun : (s.addRef x 1).btnodeRead env x pointer = some (true, s')) :
    Loaded b lev s' ∧ s'.refs = s.refs + Pi.single x 1 ∧ s'.root = s.root := by
  obtain ⟨node, hx, -⟩ := h.node x hlev
  have hx' : (s.addRef x 1).heap x = some node := hx
  obtain ⟨node', hl⟩ := btnodeRead_loads hx' hrun
  have hpos : 0 < (s.addRef x 1).refs x := by
    have hnonneg : 0 ≤ s.refs x := h.refs x
    rw [addRef_self]
    omega
  have hloaded := (h.addRef x).loads hlev hx' hl (Or.inr hpos)
  obtain ⟨-, -, -, cache, m, rfl, -⟩ := hl
  exact ⟨hloaded, rfl, rfl⟩

/-- A new node is read, and may be linked to one that was there. -/
theorem grow (h : Loaded b lev s)
    (hforest : Levelled s'.childNodes maxLevels s'.root (Function.update lev s.fresh (n + 1)))
    (hnew : ∃ node, s'.heap s.fresh = some node ∧ node.dirty = false ∧ node.update = false)
    (hold : ∀ z, lev z ≠ 0 → ∀ node, s.heap z = some node → ∃ pointers,
      s'.heap z = some { node with pointers := pointers })
    (hother : ∀ z, z ≠ s.fresh → lev z = 0 → s'.heap z = s.heap z)
    (hrefs : s'.refs = Function.update s.refs s.fresh 1) (hfresh : s'.fresh = s.fresh + 1)
    (hsize : s'.cache.size = s.cache.size) (hdisk : s'.disk = s.disk) (hsuper : s'.super = s.super)
    (hoffset : s'.superOffset = s.superOffset) :
    Loaded b (Function.update lev s.fresh (n + 1)) s' := by
  obtain ⟨hzero, hnone⟩ := h.fresh s.fresh le_rfl
  have hlev : ∀ z, z ≠ s.fresh → Function.update lev s.fresh (n + 1) z = lev z := fun z hz =>
    Function.update_of_ne hz _ _
  refine ⟨hforest, fun z hz => ?_, fun z hz => ?_, fun z hz => ?_, fun z hz => ?_, ?_, fun z => ?_,
    hdisk.trans h.disk, hsuper.trans h.super, hoffset.trans h.superOffset⟩
  · by_cases hzy : z = s.fresh
    · subst hzy
      obtain ⟨node, hn, hdirty, hupdate⟩ := hnew
      refine ⟨node, hn, hdirty, hupdate, Or.inr ?_⟩
      rw [hrefs, Function.update_self]
      exact one_pos
    · rw [hlev z hzy] at hz
      obtain ⟨node, hn, hdirty, hupdate, hdata⟩ := h.node z hz
      obtain ⟨pointers, hn'⟩ := hold z hz node hn
      refine ⟨_, hn', hdirty, hupdate, ?_⟩
      rwa [hrefs, Function.update_of_ne hzy]
  · rw [hfresh] at hz
    have hzy : z ≠ s.fresh := by omega
    obtain ⟨hz₀, hn⟩ := h.fresh z (by omega)
    exact ⟨(hlev z hzy).trans hz₀, (hother z hzy hz₀).trans hn⟩
  · have hzy : z ≠ s.fresh := by
      rintro rfl
      rw [Function.update_self] at hz
      cases hz
    rw [hlev z hzy] at hz
    exact (hother z hzy hz).trans (h.other z hz)
  · by_cases hzy : z = s.fresh
    · rw [hzy, ← h.other s.fresh hzero, hnone]
    · exact h.new z (by rwa [hlev z hzy] at hz)
  · rw [hsize]
    exact h.caching
  · rw [hrefs]
    by_cases hzy : z = s.fresh
    · rw [hzy, Function.update_self]
      exact zero_le_one
    · rw [Function.update_of_ne hzy]
      exact h.refs z

theorem set_reduceOption {pointers : List (Option ℕ)} {i : ℕ} (hi : pointers[i]? = some none)
    (y : ℕ) : ((pointers.set i (some y)).reduceOption).Perm (y :: pointers.reduceOption) := by
  obtain ⟨hlt, hget⟩ := List.getElem?_eq_some_iff.mp hi
  obtain ⟨A, B, rfl, rfl⟩ : ∃ A B, pointers = A ++ none :: B ∧ A.length = i := by
    refine ⟨pointers.take i, pointers.drop (i + 1), ?_, List.length_take_of_le hlt.le⟩
    rw [← hget, List.getElem_cons_drop, List.take_append_drop]
  rw [List.set_append_right _ _ le_rfl, Nat.sub_self, List.set_cons_zero, List.reduceOption_append,
    List.reduceOption_append, List.reduceOption_cons_of_some, List.reduceOption_cons_of_none]
  exact List.perm_middle

/-- The child of a twig is found in memory, or read and linked. -/
theorem fetchTwig {i : ℕ} (h : Loaded b lev s) (hlev : lev x = n + 2)
    (hrun : s.btnodeFetchTwig env x i = some (some y, s')) :
    ∃ lev', Loaded b lev' s' ∧ lev' x = n + 2 ∧ lev' y = n + 1 ∧
      0 < s'.refs y ∧ s'.refs x = s.refs x := by
  obtain ⟨node, hx, hrun⟩ := Option.bind_eq_some_iff.mp hrun
  obtain ⟨page, hdata, hrun⟩ := Option.bind_eq_some_iff.mp hrun
  obtain ⟨twig, -, hrun⟩ := Option.bind_eq_some_iff.mp hrun
  obtain ⟨pointers, hptr, hrun⟩ := Option.bind_eq_some_iff.mp hrun
  obtain ⟨entry, -, hrun⟩ := Option.bind_eq_some_iff.mp hrun
  obtain ⟨o, hi, hrun⟩ := Option.bind_eq_some_iff.mp hrun
  have hch : s.childNodes x = pointers.reduceOption := by
    rw [childNodes, hx, Option.bind_some, hptr, Option.getD_some]
  cases o with
  | some child =>
      obtain ⟨⟨ok, s₁⟩, hread, hrun⟩ := Option.bind_eq_some_iff.mp hrun
      cases ok with
      | false => simp at hrun
      | true =>
          obtain ⟨hy, rfl⟩ := Prod.mk.inj (Option.some.inj hrun)
          obtain rfl : child = y := Option.some.inj hy
          have hmem : child ∈ s.childNodes x := by
            rw [hch, List.reduceOption_mem_iff]
            exact List.mem_of_getElem? hi
          obtain ⟨hne, hup⟩ := h.forest.child x child (by omega) hmem
          obtain ⟨hloaded, hrefs, -⟩ := h.hold hne hread
          have hxc : x ≠ child := by
            rintro rfl
            omega
          have hnonneg : 0 ≤ s.refs child := h.refs child
          refine ⟨lev, hloaded, hlev, by omega, ?_, ?_⟩
          · rw [hrefs, Pi.add_apply, Pi.single_eq_same]
            omega
          · rw [hrefs, Pi.add_apply, Pi.single_eq_of_ne hxc, add_zero]
  | none =>
      obtain ⟨⟨o, s₁⟩, hfetch, hrun⟩ := Option.bind_eq_some_iff.mp hrun
      obtain ⟨node₁, hx₁, hrun⟩ := Option.bind_eq_some_iff.mp hrun
      obtain ⟨rfl, rfl⟩ := Prod.mk.inj (Option.some.inj hrun)
      obtain ⟨rfl, child, cache, m, rfl, hsize, hdirty, hupdate, hnil⟩ := btnodeFetch_state hfetch
      obtain ⟨hzero, hnone⟩ := h.fresh s.fresh le_rfl
      have hxy : x ≠ s.fresh := by
        rintro rfl
        omega
      obtain rfl : node = node₁ := by
        have hsame : (Function.update s.heap s.fresh (some child)) x = some node := by
          rw [Function.update_of_ne hxy, hx]
        exact Option.some.inj (hsame.symm.trans hx₁)
      refine ⟨Function.update lev s.fresh (n + 1), h.grow ?_ ?_ (fun z hz node' hn => ?_)
        (fun z hzy hz => ?_) rfl rfl hsize rfl rfl rfl, ?_, Function.update_self _ _ _, ?_, ?_⟩
      · refine h.forest.link hlev hzero ?_ ?_ fun z hzx hzy => ?_
        · rw [hch]
          simp only [childNodes, setNode_heap_self, Option.bind_some, Option.getD_some]
          exact set_reduceOption hi s.fresh
        · simp only [childNodes, setNode_heap_ne _ hxy.symm, Function.update_self, Option.bind_some]
          exact hnil
        · simp only [childNodes, setNode_heap_ne _ hzx, Function.update_of_ne hzy]
      · refine ⟨child, ?_, hdirty, hupdate⟩
        rw [setNode_heap_ne _ hxy.symm]
        exact Function.update_self _ _ _
      · by_cases hzx : z = x
        · subst hzx
          obtain rfl := Option.some.inj (hx.symm.trans hn)
          exact ⟨_, setNode_heap_self _ _ _⟩
        · have hzy : z ≠ s.fresh := fun heq => hz (heq ▸ hzero)
          refine ⟨node'.pointers, ?_⟩
          rw [setNode_heap_ne _ hzx]
          exact (Function.update_of_ne hzy _ _).trans hn
      · have hzx : z ≠ x := by
          rintro rfl
          omega
        rw [setNode_heap_ne _ hzx]
        exact Function.update_of_ne hzy _ _
      · rwa [Function.update_of_ne hxy]
      · change 0 < Function.update s.refs s.fresh 1 s.fresh
        rw [Function.update_self]
        exact one_pos
      · exact Function.update_of_ne hxy _ _

theorem fetchRoot {r : ℕ} (h : Loaded b lev s)
    (hrun : s.btreeFetchRoot env = some (some r, s')) :
    ∃ lev', Loaded b lev' s' ∧ lev' r = maxLevels ∧ 0 < s'.refs r := by
  unfold btreeFetchRoot at hrun
  cases hroot : s.root with
  | some root =>
      simp only [hroot] at hrun
      obtain ⟨⟨ok, s₁⟩, hread, hrun⟩ := Option.bind_eq_some_iff.mp hrun
      cases ok with
      | false => simp at hrun
      | true =>
          obtain ⟨hr, rfl⟩ := Prod.mk.inj (Option.some.inj hrun)
          obtain rfl : root = r := Option.some.inj hr
          have hlev := h.forest.root root hroot
          have hne : lev root ≠ 0 := by
            rw [hlev]
            decide
          obtain ⟨hloaded, hrefs, -⟩ := h.hold hne hread
          have hnonneg : 0 ≤ s.refs root := h.refs root
          refine ⟨lev, hloaded, hlev, ?_⟩
          rw [hrefs, Pi.add_apply, Pi.single_eq_same]
          omega
  | none =>
      simp only [hroot] at hrun
      obtain ⟨⟨o, s₁⟩, hfetch, hrun⟩ := Option.bind_eq_some_iff.mp hrun
      obtain ⟨rfl, rfl⟩ := Prod.mk.inj (Option.some.inj hrun)
      obtain ⟨rfl, child, cache, m, rfl, hsize, hdirty, hupdate, hnil⟩ := btnodeFetch_state hfetch
      obtain rfl : lev = fun _ => 0 := funext fun x => (hroot ▸ h.forest).unrooted x
      have htop : maxLevels = maxLevels - 1 + 1 := rfl
      have hself : Function.update s.refs s.fresh 1 s.fresh = 1 := Function.update_self _ _ _
      refine ⟨Function.update (fun _ => 0) s.fresh (maxLevels - 1 + 1), h.grow ?_ ?_
        (fun z hz => absurd rfl hz) (fun z hz _ => ?_) rfl rfl hsize rfl rfl rfl,
        Function.update_self _ _ _, ?_⟩
      · rw [← htop]
        refine Levelled.plant ?_
        simp only [childNodes, Function.update_self, Option.bind_some]
        exact hnil
      · exact ⟨child, Function.update_self _ _ _, hdirty, hupdate⟩
      · exact Function.update_of_ne hz _ _
      · change 0 < Function.update s.refs s.fresh 1 s.fresh
        rw [hself]
        exact one_pos

variable [LinearOrder K] {key : K}

theorem lookupLoop {fuel : ℕ} {place place' : Place} (h : Loaded b lev s) (hlev : lev x = fuel)
    (hpos : 0 < s.refs x)
    (hrun : lookupLoop env key 1 fuel (some x) place s = some (some y, place', s')) :
    ∃ lev', Loaded b lev' s' ∧ lev' y ≠ 0 := by
  induction fuel generalizing s lev x place with
  | zero => cases hrun
  | succ fuel ih =>
      obtain ⟨place₁, -, hrun⟩ := Option.bind_eq_some_iff.mp hrun
      obtain ⟨page, -, hrun⟩ := Option.bind_eq_some_iff.mp hrun
      split_ifs at hrun with hl h1
      · obtain ⟨hy, hrest⟩ := Prod.mk.inj (Option.some.inj hrun)
        obtain rfl := (Prod.mk.inj hrest).2
        obtain rfl := Option.some.inj hy
        exact ⟨lev, h, by omega⟩
      all_goals
        obtain ⟨⟨under, s₁⟩, hfetch, hrun⟩ := Option.bind_eq_some_iff.mp hrun
        obtain ⟨s₂, hrelease, hrun⟩ := Option.bind_eq_some_iff.mp hrun
        cases under with
        | none => cases fuel <;> cases hrun
        | some c =>
            cases fuel with
            | zero => cases hrun
            | succ n =>
                obtain ⟨lev', h₁, hx, hc, hcpos, hrefs⟩ := h.fetchTwig hlev hfetch
                obtain ⟨h₂, hrefs₂, -⟩ := h₁.release (by omega) hrelease
                have hcx : c ≠ x := by
                  rintro rfl
                  omega
                refine ih h₂ hc ?_ hrun
                rwa [hrefs₂, Pi.add_apply, Pi.single_eq_of_ne hcx, add_zero]

theorem lookup {place : Place} {s₁ : Btree K D} {size : ℕ} {bytes : List UInt8}
    (h : Loaded b lev s)
    (hlook : s.btreeLookupLevel env key 1 noPlace = some (some y, place, s₁))
    (hrun : s.btreeLookup env key size = some (bytes, s')) :
    ∃ lev', Loaded b lev' s' ∧ s'.root ≠ none := by
  obtain ⟨⟨root, s₀⟩, hfetch, hloop⟩ := Option.bind_eq_some_iff.mp hlook
  cases root with
  | none => cases hloop
  | some r =>
      obtain ⟨lev₀, h₀, hlev₀, hpos₀⟩ := h.fetchRoot hfetch
      obtain ⟨lev₁, h₁, hy⟩ := h₀.lookupLoop hlev₀ hpos₀ hloop
      have hdone : ∀ s₂, s₁.btnodeRelease env y = some s₂ → Loaded b lev₁ s₂ ∧ s₂.root ≠ none :=
        fun s₂ hrelease => by
          have h₂ := (h₁.release hy hrelease).1
          exact ⟨h₂, h₂.rooted hy⟩
      simp only [btreeLookup, hlook, Option.bind_eq_bind, Option.bind_some] at hrun
      split_ifs at hrun
      · obtain ⟨s₂, hrelease, hrun⟩ := Option.bind_eq_some_iff.mp hrun
        obtain ⟨-, rfl⟩ := Prod.mk.inj (Option.some.inj hrun)
        exact ⟨lev₁, hdone s₂ hrelease⟩
      · obtain ⟨page, -, hrun⟩ := Option.bind_eq_some_iff.mp hrun
        obtain ⟨leaf, -, hrun⟩ := Option.bind_eq_some_iff.mp hrun
        obtain ⟨slot, -, hrun⟩ := Option.bind_eq_some_iff.mp hrun
        obtain ⟨s₂, hrelease, hrun⟩ := Option.bind_eq_some_iff.mp hrun
        obtain ⟨-, rfl⟩ := Prod.mk.inj (Option.some.inj hrun)
        exact ⟨lev₁, hdone s₂ hrelease⟩

end Loaded

/-! ## The state between calls -/

variable {level : ℕ} {L : List (K × List UInt8)} {t : PageTree K}

theorem nodes_eq_below (s : Btree K D) (level x : ℕ) :
    s.nodes level x = below s.childNodes level x := by
  induction level using Nat.strong_induction_on generalizing x with
  | _ level ih =>
      match level with
      | 0 => rfl
      | 1 => rfl
      | level + 2 =>
          rw [nodes, below]
          congr 1
          exact List.flatMap_congr fun y _ => ih (level + 1) (by omega) y

theorem Loaded.depth (h : Loaded b lev s) (hx : lev x = n + 1) : Depth s (n + 1) x := by
  induction n generalizing x with
  | zero => exact h.forest.bottom hx
  | succ n ih =>
      intro y hy
      obtain ⟨hne, hlev⟩ := h.forest.child x y (by omega) hy
      exact ih (by omega)

variable (env) in
theorem Loaded.release_all {r : ℕ} (h : Loaded b lev s) (hroot : s.root = some r)
    (hrefs : s.refs = 0) : ∃ s', memNodesRelease env maxLevels s r = some s' ∧ s'.heap = b.heap ∧
      s'.disk = b.disk ∧ s'.super = b.super ∧ s'.superOffset = b.superOffset ∧ s'.refs = 0 := by
  have hr : lev r = maxLevels := h.forest.root r hroot
  have hmem : ∀ y, y ∈ s.nodes maxLevels r ↔ lev y ≠ 0 := fun y => by
    rw [nodes_eq_below]
    exact ⟨fun hy => (h.forest.lev_of_mem hr hy).1, fun hy => (hroot ▸ h.forest).mem_below_root hy⟩
  have hdepth : Depth s maxLevels r := h.depth (n := maxLevels - 1) hr
  have hfree : ∀ y ∈ s.nodes maxLevels r, Freeable s y := fun y hy => by
    obtain ⟨node, hn, -, -, hdata⟩ := h.node y ((hmem y).mp hy)
    have hzero : s.refs y = 0 := congrFun hrefs y
    exact ⟨⟨node, hn, hdata.resolve_right (by omega)⟩, hzero⟩
  refine ⟨_, memNodesRelease_spec env hdepth ?_ hfree le_rfl, funext fun y => ?_, h.disk, h.super,
    h.superOffset, hrefs⟩
  · rw [nodes_eq_below]
    exact h.forest.below_nodup hr
  · by_cases hy : lev y = 0
    · rw [drop_heap fun hmem' => (hmem y).mp hmem' hy, h.other y hy]
    · rw [drop_heap_mem ((hmem y).mpr hy), h.new y hy]

variable [LinearOrder K]

/-- A tree on disk, between two calls. -/
structure Working (env : BtreeEnv K D) (b : Btree K D) (level : ℕ) (t : PageTree K)
    (L : List (K × List UInt8)) (s : Btree K D) : Prop where
  stored : ∃ v, Stored env v s level t
  holds : t.Holds level L
  rising : Rising Prod.fst L
  loaded : ∃ lev, Loaded b lev s
  refs : s.refs = 0

variable {v : View K}

theorem Stored.served (hg : ∀ n, env.granted n = true) (h : Stored env v s level t)
    (hr : 0 ≤ s.refs) (q : K) :
    ∃ y place s', s.btreeLookupLevel env q 1 noPlace = some (some y, place, s') := by
  obtain ⟨ok, v₁, s₁, root, hroot, hgrant, hdone⟩ := h.btreeFetchRoot env
  obtain rfl := hgrant hg
  obtain ⟨h₁, -, hrefs₁, hunder, hpage⟩ := hdone rfl
  have hlook : s.btreeLookupLevel env q 1 noPlace =
      lookupLoop env q 1 (maxLevels - level + level) (some root) noPlace s₁ := by
    have hlevels := h.levels
    have hmax : maxLevels = 2 ^ 8 := rfl
    rw [Nat.sub_add_cancel (by omega)]
    simp only [btreeLookupLevel, hroot, if_true, Option.bind_eq_bind, Option.bind_some]
  have hreach : Reached env v₁ s₁ root level t :=
    ⟨h₁.memory, hunder, hpage, h₁.formed, h₁.narrow⟩
  obtain ⟨v₂, s₂, y, c, place, -, -, hleaf, -, -, hloop⟩ :=
    hreach.descend env h.levels hr hrefs₁ (Or.inl hg)
  obtain ⟨hcl, -, leaf, hbody⟩ := hleaf.formed
  have hcleaf : c.page.leaf? = some leaf := by rw [Page.leaf?, hbody]
  obtain ⟨found, index, hsearch, -, hfound⟩ := indexSearch_total leaf.keys q
  have hnotabove : ¬ c.page.level > 1 := by omega
  obtain ⟨place', hnode⟩ : ∃ place', s₂.searchNode y q place = some place' := by
    cases found with
    | false =>
        refine ⟨⟨index, place.size, false⟩, ?_⟩
        simp only [searchNode, hleaf.page, Option.bind_eq_bind, Option.bind_some,
          if_neg hnotabove, hcleaf, LeafPage.search, hsearch, Bool.false_eq_true, if_false,
          Option.pure_def]
    | true =>
        have hget := hfound rfl
        rw [LeafPage.keys, List.getElem?_map, Option.map_eq_some_iff] at hget
        obtain ⟨slot, hslot, -⟩ := hget
        refine ⟨⟨index, slot.size, true⟩, ?_⟩
        simp only [searchNode, hleaf.page, Option.bind_eq_bind, Option.bind_some,
          if_neg hnotabove, hcleaf, LeafPage.search, hsearch, hslot, if_true, Option.pure_def]
  refine ⟨y, place', s₂, ?_⟩
  rw [hlook, hloop, lookupLoop]
  simp only [hnode, hleaf.page, hcl, if_true, Option.bind_eq_bind, Option.bind_some,
    Option.pure_def]

namespace Working

theorem lookup (hg : ∀ n, env.granted n = true) (h : Working env b level t L s) (key : K)
    (size : ℕ) :
    ∃ s', s.btreeLookup env key size = some (((itemsOf L key).getD []).take size, s') ∧
      Working env b level t L s' ∧ s'.root ≠ none := by
  obtain ⟨v, hstored⟩ := h.stored
  obtain ⟨lev, hloaded⟩ := h.loaded
  obtain ⟨y, place, s₁, hlook⟩ := hstored.served hg h.refs.ge key
  obtain ⟨v', s', bytes, hfind, hrun, hstored', -, hrefs⟩ :=
    hstored.btreeLookup env (q := key) h.refs.ge (Or.inl hg) size
  rw [h.holds.find hstored.formed hstored.narrow h.rising] at hfind
  obtain rfl := Option.some.inj hfind
  obtain ⟨lev', hloaded', hroot⟩ := hloaded.lookup hlook hrun
  exact ⟨s', hrun, ⟨⟨v', hstored'⟩, h.holds, h.rising, ⟨lev', hloaded'⟩, hrefs.trans h.refs⟩, hroot⟩

/-- Nothing is left to be written: all nodes are clean. -/
theorem sync (hg : ∀ n, env.granted n = true) (h : Working env b level t L s)
    (hroot : s.root ≠ none) :
    ∃ s', s.btreeSync env = some (1, s') ∧ Working env b level t L s' ∧ s'.root ≠ none := by
  obtain ⟨v, hstored⟩ := h.stored
  obtain ⟨lev, hloaded⟩ := h.loaded
  obtain ⟨r₀, hroot⟩ := Option.ne_none_iff_exists'.mp hroot
  obtain ⟨ok, v₁, s₁, r, hfetch, hgrant, hdone⟩ := hstored.btreeFetchRoot env
  obtain rfl := hgrant hg
  obtain ⟨h₁, -, hrefs₁, hunder, hpage⟩ := hdone rfl
  obtain ⟨lev₁, hloaded₁, hlev₁, hpos⟩ := hloaded.fetchRoot hfetch
  have hne : lev₁ r ≠ 0 := by
    rw [hlev₁]
    decide
  obtain ⟨node, hx, hdirty, hupdate, -⟩ := hloaded₁.node r hne
  have hdata : node.data = some t.page := by
    simpa [Btree.page, hx] using hpage
  have hone : s₁.refs r = 1 := by
    rw [hrefs₁, h.refs]
    simp
  have hsync : ∃ rc, (rc = 1 ∨ rc = 2) ∧
      syncNode env maxLevels s₁ r nullPointer = some (rc, nullPointer, s₁) := by
    have hfuel : maxLevels = maxLevels - 1 + 1 := rfl
    rw [hfuel, syncNode]
    by_cases hlevel : t.page.level > 1
    · refine ⟨1, Or.inl rfl, ?_⟩
      simp only [hone, hx, hdata, hlevel, hdirty, hupdate, ne_eq, not_true_eq_false, if_false,
        if_true, Option.bind_eq_bind, Option.bind_some, Bool.not_false, Bool.and_self,
        Option.pure_def]
    · refine ⟨2, Or.inr rfl, ?_⟩
      simp only [hone, hx, hdata, hlevel, hdirty, ne_eq, not_true_eq_false, if_false, if_true,
        Option.bind_eq_bind, Option.bind_some, Bool.not_false, Option.pure_def]
  obtain ⟨rc, hrc, hsync⟩ := hsync
  obtain ⟨s₂, hrelease, hmem₂, hsame₂, hrefs₂, -⟩ :=
    h₁.memory.btnodeRelease env hunder hpage hpos
  obtain ⟨hloaded₂, -, hroot₂⟩ := hloaded₁.release hne hrelease
  refine ⟨s₂, ?_, ⟨⟨v₁, h₁.later env hsame₂ (.refl v₁) hmem₂⟩, h.holds, h.rising, ⟨lev₁, hloaded₂⟩,
    ?_⟩, hloaded₂.rooted hne⟩
  · have hpos : ¬ rc < 0 ∧ rc > 0 := by omega
    simp only [Btree.btreeSync, hroot, hfetch, hsync, hrelease, if_true, if_neg hpos.1,
      if_pos hpos.2, Option.bind_eq_bind, Option.bind_some, Option.pure_def]
  · rw [hrefs₂, hrefs₁, h.refs, zero_add, ← Pi.single_add]
    simp

theorem close (hg : ∀ n, env.granted n = true) (h : Working env b level t L s) :
    ∃ s', s.btreeClose env = some (0, s') ∧ s'.heap = b.heap ∧ s'.disk = b.disk ∧ s'.refs = 0 ∧
      s'.root = none := by
  cases hroot : s.root with
  | none =>
      obtain ⟨lev, hloaded⟩ := h.loaded
      refine ⟨s, ?_, funext fun x => ?_, hloaded.disk, h.refs, hroot⟩
      · simp only [btreeClose, Btree.btreeSync, hroot, lt_irrefl, if_false, Option.bind_eq_bind,
          Option.bind_some, Option.pure_def]
      · exact hloaded.other x ((hroot ▸ hloaded.forest).unrooted x)
  | some r =>
      obtain ⟨s₁, hsync, h₁, hroot₁⟩ := h.sync hg (by rw [hroot]; exact Option.some_ne_none r)
      obtain ⟨lev, hloaded⟩ := h₁.loaded
      obtain ⟨r₁, hroot₁⟩ := Option.ne_none_iff_exists'.mp hroot₁
      obtain ⟨s₂, hrelease, hheap, hdisk, -, -, hrefs⟩ :=
        hloaded.release_all env hroot₁ h₁.refs
      have hpos : ¬ (1 : ℤ) < 0 := by decide
      refine ⟨{ s₂ with root := none }, ?_, hheap, hdisk, hrefs, rfl⟩
      simp only [btreeClose, hsync, hroot₁, hrelease, if_neg hpos, Option.bind_eq_bind,
        Option.bind_some, Option.pure_def]

end Working

/-! ## Runs -/

/-- A call on a tree that is on disk. -/
inductive Visit (K : Type)
  | lookup (key : K) (size : ℕ)
  | sync

def Visit.run (env : BtreeEnv K D) (s : Btree K D) : Visit K → Option (Result × Btree K D)
  | lookup key size => (s.btreeLookup env key size).map fun r => (.inr r.1, r.2)
  | sync => (s.btreeSync env).map fun r => (.inl r.1, r.2)

def runVisits (env : BtreeEnv K D) : Btree K D → List (Visit K) → Option (List Result × Btree K D)
  | s, [] => some ([], s)
  | s, c :: cs => (c.run env s).bind fun r =>
      (runVisits env r.2 cs).map fun t => (r.1 :: t.1, t.2)

/-- The values of the keys; a synchronisation finds no root, or a clean one. -/
def visited (m : Items K) : Bool → List (Visit K) → List Result
  | _, [] => []
  | _, .lookup key size :: cs => .inr (((m key).getD []).take size) :: visited m true cs
  | rooted, .sync :: cs => .inl (if rooted then 1 else 0) :: visited m rooted cs

theorem Working.visits (hg : ∀ n, env.granted n = true) (h : Working env b level t L s)
    (cs : List (Visit K)) :
    ∃ s', s.runVisits env cs = some (visited (itemsOf L) s.root.isSome cs, s') ∧
      Working env b level t L s' := by
  induction cs generalizing s with
  | nil => exact ⟨s, rfl, h⟩
  | cons c cs ih =>
      cases c with
      | lookup key size =>
          obtain ⟨s₁, hrun, h₁, hroot⟩ := h.lookup hg key size
          obtain ⟨s', hruns, h'⟩ := ih h₁
          rw [Option.isSome_iff_ne_none.mpr hroot] at hruns
          refine ⟨s', ?_, h'⟩
          rw [runVisits, Visit.run, hrun, Option.map_some, Option.bind_some, hruns]
          rfl
      | sync =>
          cases hroot : s.root with
          | none =>
              have hrun : s.btreeSync env = some (0, s) := by
                simp only [Btree.btreeSync, hroot, Option.pure_def]
              obtain ⟨s', hruns, h'⟩ := ih h
              refine ⟨s', ?_, h'⟩
              rw [runVisits, Visit.run, hrun, Option.map_some, Option.bind_some, hruns, hroot]
              rfl
          | some r =>
              obtain ⟨s₁, hrun, h₁, hroot₁⟩ :=
                h.sync hg (by rw [hroot]; exact Option.some_ne_none r)
              obtain ⟨s', hruns, h'⟩ := ih h₁
              rw [Option.isSome_iff_ne_none.mpr hroot₁] at hruns
              refine ⟨s', ?_, h'⟩
              rw [runVisits, Visit.run, hrun, Option.map_some, Option.bind_some, hruns]
              rfl

variable {store : DiskStore K D} {disk : D}
  {cacheSize superOffset blockSize keySize magic nodeMagic : ℕ}

theorem Saved.working (h : Saved env store b level t L) (hs : Rising Prod.fst L)
    (hcaching : b.cache.size ≠ 0) : Working env b level t L b where
  stored := ⟨_, h.stored⟩
  holds := h.holds
  rising := hs
  loaded := ⟨fun _ => 0, h.root ▸ .start _ _, fun _ hx => absurd rfl hx,
    fun x hx => ⟨rfl, (h.stored.memory.blank x hx).1⟩, fun _ _ => rfl, fun _ hx => absurd rfl hx,
    hcaching, h.refs.ge, rfl, rfl, rfl⟩
  refs := h.refs

/-- After a tree was written, lookups and synchronisations in any order return, and so does
`btree_close`. It leaves the disk, the counts and the nodes in memory as `btree_sync` did. -/
theorem btreeSync_session (hg : ∀ n, env.granted n = true) (hkey : keySize < 2 ^ 16)
    (hblock : blockSize < 2 ^ 32) (hcaching : cacheSize ≠ 0)
    (hf : Faithful env store superOffset) (hplace : store.pages disk superOffset = none)
    (hcreate : btreeCreate env disk cacheSize superOffset blockSize keySize magic nodeMagic = some b)
    {cs cs' : List (Call K)} (hcs : AdmitsBoth env b cs cs') {q : K}
    (hleft : (onMap noItems (cs ++ cs')).2 q ≠ none) :
    ∃ s s₁, b.runCalls env (cs ++ cs') = some ((onMap noItems (cs ++ cs')).1, s) ∧
      s.btreeSync env = some (0, s₁) ∧ ∀ visits : List (Visit K), ∃ s₂ s₃,
        s₁.runVisits env visits = some (visited (onMap noItems (cs ++ cs')).2 false visits, s₂) ∧
        s₂.btreeClose env = some (0, s₃) ∧ s₃.heap = s₁.heap ∧ s₃.disk = s₁.disk ∧
        s₃.refs = 0 := by
  obtain ⟨s, L, level, r, hrun, hunwritten, hitems, rfl, -, -⟩ :=
    btreeCreate_unwritten hg hkey hblock hcaching hplace hcreate hcs hleft
  obtain ⟨s₁, t, p, hsync, hsaved, -, hsize, -⟩ := hunwritten.btreeSync hf
  have hworking := hsaved.working hunwritten.rising (hsize ▸ hunwritten.caching)
  refine ⟨s, s₁, hrun, hsync, fun visits => ?_⟩
  obtain ⟨s₂, hvisits, h₂⟩ := hworking.visits hg visits
  obtain ⟨s₃, hclose, hheap, hdisk, hrefs, -⟩ := h₂.close hg
  rw [hsaved.root, hitems] at hvisits
  exact ⟨s₂, s₃, hvisits, hclose, hheap, hdisk, hrefs⟩

/-- The tree is searched, written again, and closed. -/
theorem btreeSync_session_few : ∃ (b s s₁ s₂ s₃ : Btree ℕ Drive),
    btreeCreate fileEnv Drive.new 16 512 112 4 1 2 = some b ∧
      b.runCalls fileEnv fewCalls = some ([.inl 0, .inr [1], .inl 0, .inl 2, .inr [3, 4]], s) ∧
      s.btreeSync fileEnv = some (0, s₁) ∧
      s₁.runVisits fileEnv [.sync, .lookup 5 1, .sync, .lookup 7 8] =
        some ([.inl 0, .inr [3], .inl 1, .inr []], s₂) ∧
      s₂.btreeClose fileEnv = some (0, s₃) ∧ s₃.disk = s₁.disk := by
  have hg : ∀ n, fileEnv.granted n = true := fun _ => rfl
  obtain ⟨b, hb⟩ : ∃ b, btreeCreate fileEnv Drive.new 16 512 112 4 1 2 = some b := ⟨_, rfl⟩
  have hcs : AdmitsBoth fileEnv b fewCalls [] := ⟨fewCalls_admitted hg hb, fun _ _ _ => trivial⟩
  have hleft : (onMap noItems (fewCalls ++ [])).2 5 ≠ none :=
    Option.some_ne_none ([3, 4] : List UInt8)
  obtain ⟨s, s₁, hrun, hsync, hvisits⟩ := btreeSync_session hg (by decide) (by decide) (by decide)
    fileEnv_faithful rfl hb hcs hleft
  obtain ⟨s₂, s₃, hvisits, hclose, -, hdisk, -⟩ :=
    hvisits [.sync, .lookup 5 1, .sync, .lookup 7 8]
  exact ⟨b, s, s₁, s₂, s₃, hb, hrun, hsync, hvisits, hclose, hdisk⟩

end Btree

end Carthage
