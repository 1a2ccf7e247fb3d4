import Carthage.BtreeLinked

/-!
# Leaf operations

What insertion and split do to resident leaves, and that an item too large for an empty
leaf goes into none.
-/

namespace Carthage

namespace LeafPage

variable {K : Type} {g : Geometry} {p p' : LeafPage K} {key : K} {value : List UInt8}

end LeafPage

namespace Btree

variable {K D : Type} {s s' s'' : Btree K D} {E : Prop} {level x y f : ℕ} {key : K}
  {value : List UInt8} {A B items : List (K × List UInt8)} {xs cs : List (ℕ × K)}
  {above : List (List (ℕ × K))} {X : List ℕ}

/-- Only the nodes `X` and counters have changed. -/
structure Touches (X : List ℕ) (s s' : Btree K D) : Prop where
  others : ∀ y, y ∉ X → s'.heap y = s.heap y
  alive : ∀ y ∈ X, s.heap y ≠ none
  config : s'.config = s.config
  refs : s'.refs = s.refs
  root : s'.root = s.root
  fresh : s'.fresh = s.fresh
  height : s'.super.height = s.super.height
  mallocs : s'.mallocs = s.mallocs

namespace Touches

theorem ready (h : Touches X s s') (hr : Ready s) : Ready s' := by
  have hgeometry : s'.super.toGeometry = s.super.toGeometry := congrArg Config.geometry h.config
  refine ⟨h.refs ▸ hr.refs, fun z hz => ?_, hgeometry ▸ hr.created⟩
  rw [h.fresh] at hz
  obtain ⟨hheap, hrefs⟩ := hr.blank z hz
  refine ⟨(h.others z fun hmem => h.alive z hmem hheap).trans hheap, ?_⟩
  rw [h.refs]
  exact hrefs

theorem leafAt (h : Touches X s s') (hy : y ∉ X) (hl : LeafAt s y items) : LeafAt s' y items :=
  hl.frame h.config (h.others y hy)

theorem sameBelow (h : Touches X s' s'') (hb : SameBelow level s s') (hX : ∀ y ∈ X, s.heap y = none) :
    SameBelow level s s'' := by
  refine ⟨h.config.trans hb.config, fun z page hp hl => ?_⟩
  rw [h.others z fun hz => ?_, hb.low z page hp hl]
  simp [Btree.page, hX z hz] at hp

theorem index (h : Touches X s s') (hX : ∀ y ∈ X, ∃ items, LeafIn s y items)
    (hi : Index E s level xs above) : Index E s' level xs above := by
  refine hi.mono h.root fun y l cs _ hc => hc.frame h.config (h.others y fun hy => ?_)
  obtain ⟨items, hl⟩ := hX y hy
  obtain ⟨crc, leaf, hp, -⟩ := hl.page
  obtain ⟨crc', twig, hp', -⟩ := hc.page
  rw [hp] at hp'
  cases hp'

end Touches

variable (key) in
theorem leafInsert_spec (h : LeafIn s x (A ++ B)) (hb : s.super.blockSize < 2 ^ 32)
    (hroom : ∀ page, s.page x = some page → s.super.itemNeeded value.length ≤ page.free) :
    ∃ s', s.leafInsert x A.length key value = some s' ∧ Touches [x] s s' ∧
      LeafAt s' x (A ++ (key, value) :: B) := by
  obtain ⟨node, hx, ⟨t⟩⟩ := h
  have hpage : s.page x = some ⟨t.crc, 1, .leaf t.leaf⟩ := by
    simp only [Btree.page, hx, t.data, Option.bind_eq_bind, Option.bind_some]
  have hinsert : ∃ leaf, t.leaf.insert s.super.toGeometry A.length key value = some leaf ∧
      LeafPage.Packed s.super.toGeometry leaf (A ++ (key, value) :: B) :=
    t.packed.insert hb (hroom _ hpage)
  obtain ⟨leaf, hins', hpacked⟩ := hinsert
  let node' : BtNode K := { node with data := some ⟨t.crc, 1, .leaf leaf⟩, dirty := true }
  refine ⟨{ s.setNode x node' with
    super := { s.super with
      itemCount := add64 s.super.itemCount 1,
      storedData := add64 s.super.storedData value.length } },
    ?_, ⟨?_, ?_, rfl, rfl, rfl, rfl, rfl, rfl⟩, node', setNode_heap_self s x node', ⟨?_⟩⟩
  · simp only [leafInsert, hx, t.data, Page.leaf?, hins', Option.bind_eq_bind, Option.bind_some,
      Option.pure_def]
    rfl
  · intro y hy
    exact setNode_heap_ne s (List.ne_of_not_mem_cons hy) node'
  · intro y hy
    rw [List.mem_singleton.mp hy, hx]
    exact Option.some_ne_none node
  · exact ⟨⟨t.crc, leaf, rfl, hpacked⟩, Or.inl rfl⟩

theorem LeafAt.full {page : Page K} (h : LeafAt s x items) (hp : s.page x = some page)
    (hc : s.super.toGeometry.Created) (hlarge : s.super.itemNeeded value.length ≤ s.super.nodeSpace)
    (hfull : ¬ s.super.itemNeeded value.length ≤ page.free) :
    ¬ page.free % 2 ^ 32 ≥ s.super.itemNeeded value.length % 2 ^ 32 := by
  obtain ⟨crc, leaf, hpleaf, hpacked⟩ := h.page
  obtain rfl := Option.some.inj (hpleaf.symm.trans hp)
  have hfree : Page.free ⟨crc, 1, .leaf leaf⟩ < 2 ^ 32 := hpacked.free_lt hc.blockSize
  have hneeded : s.super.itemNeeded value.length < 2 ^ 32 :=
    hlarge.trans_lt ((Nat.sub_le _ _).trans_lt hc.blockSize)
  rwa [Nat.mod_eq_of_lt hneeded, Nat.mod_eq_of_lt hfree]

theorem newLeaf_spec (uninit : Bytes) (hr : Ready s) (hx : s.heap x ≠ none)
    (hlarge : s.super.itemNeeded value.length ≤ s.super.nodeSpace) (key : K) :
    ∃ t, (((s.addRef x 1).allocated uninit 1).addRef s.fresh 1).leafInsert s.fresh 0 key value =
        some t ∧ LeafAt t s.fresh [(key, value)] ∧ (∀ l, SameBelow l s t) ∧ t.root = s.root ∧
      t.super.height = s.super.height ∧ t.refs = ((s.addRef x 1).addRef s.fresh 1).refs ∧
      Ready t ∧ t.mallocs = s.mallocs + 2 := by
  have hsize : 16 ≤ s.super.blockSize := by
    have := hr.created.large
    omega
  let t₁ := ((s.addRef x 1).allocated uninit 1).addRef s.fresh 1
  have hnew : LeafIn t₁ s.fresh ([] ++ []) := (leafIn_allocated hsize).frame rfl rfl
  have hroom : ∀ page, t₁.page s.fresh = some page →
      t₁.super.itemNeeded value.length ≤ page.free := by
    intro page hp
    obtain ⟨crc, leaf, hp', hpacked⟩ := hnew.page
    obtain rfl := Option.some.inj (hp'.symm.trans hp)
    have hfree : leaf.free + (16 + 0 * t₁.super.itemSize) + 0 = t₁.super.blockSize := hpacked.free
    have hlarge' : t₁.super.itemNeeded value.length ≤ t₁.super.blockSize - 16 := hlarge
    change _ ≤ leaf.free
    omega
  obtain ⟨t, hins, htouch, hleaf⟩ :=
    leafInsert_spec key hnew (show t₁.super.blockSize < 2 ^ 32 from hr.created.blockSize) hroom
  have hfresh : ∀ y ∈ [s.fresh], s.heap y = none := fun y hy => by
    rw [List.mem_singleton.mp hy]
    exact (hr.blank _ le_rfl).1
  exact ⟨t, hins, hleaf, fun l => htouch.sameBelow (hr.allocates hx uninit l) hfresh, htouch.root,
    htouch.height, htouch.refs, htouch.ready ((hr.addRef hx).alloc uninit 1), htouch.mallocs⟩

theorem leafSplit_spec (h : LeafIn s x (A ++ B)) (hf : LeafIn s f []) (hne : x ≠ f)
    (hb : s.super.blockSize < 2 ^ 32) (hhalf : A.length = (A ++ B).length / 2)
    (hitem : A ++ B ≠ []) :
    ∃ s', s.leafSplit x f = some s' ∧ Touches [x, f] s s' ∧ LeafAt s' x A ∧ LeafAt s' f B := by
  obtain ⟨lnode, hx, ⟨l⟩⟩ := h
  obtain ⟨rnode, hxf, ⟨r⟩⟩ := hf
  obtain ⟨lleaf, rleaf, hsplit, hl, hr⟩ := l.packed.split r.packed hb hhalf hitem
  have hsplit' : l.leaf.split s.super.toGeometry r.leaf = some (lleaf, rleaf) := hsplit
  let lnode' : BtNode K := { lnode with data := some ⟨l.crc, 1, .leaf lleaf⟩, dirty := true }
  let rnode' : BtNode K := { rnode with data := some ⟨r.crc, 1, .leaf rleaf⟩, dirty := true }
  refine ⟨(s.setNode f rnode').setNode x lnode', ?_, ⟨?_, ?_, rfl, rfl, rfl, rfl, rfl, rfl⟩, ?_, ?_⟩
  · simp only [leafSplit, hx, hxf, l.data, r.data, Page.leaf?, hsplit', Option.bind_eq_bind,
      Option.bind_some, Option.pure_def]
    rfl
  · intro y hy
    have hyx : y ≠ x := fun heq => hy (heq ▸ List.mem_cons_self)
    have hyf : y ≠ f := fun heq => hy (heq ▸ List.mem_cons_of_mem _ List.mem_cons_self)
    rw [setNode_heap_ne _ hyx, setNode_heap_ne _ hyf]
  · intro y hy
    rcases List.mem_cons.mp hy with rfl | hy
    · rw [hx]
      exact Option.some_ne_none lnode
    · rw [List.mem_singleton.mp hy, hxf]
      exact Option.some_ne_none rnode
  · exact ⟨lnode', setNode_heap_self _ _ _, ⟨⟨l.crc, lleaf, rfl, hl⟩, Or.inl rfl⟩⟩
  · refine ⟨rnode', ?_, ⟨⟨r.crc, rleaf, rfl, hr⟩, Or.inl rfl⟩⟩
    rw [setNode_heap_ne _ hne.symm, setNode_heap_self]

end Btree

end Carthage
