import Carthage.Btree
import Carthage.PackedPage

/-!
# Resident nodes

What it means that an address holds a resident twig with given children, or a resident
leaf with given items, and what the operations on single nodes do there.
-/

namespace Carthage

/-- What the node predicates depend on besides the node. -/
structure Config where
  geometry : Geometry
  cacheSize : ℕ

/-- A node keeps its block when it is released: it is dirty, or there is no cache. -/
def Config.Keeps {K : Type} (cfg : Config) (node : BtNode K) : Prop :=
  node.dirty = true ∨ cfg.cacheSize = 0

/-- A block that is a twig with the given children. `exact` asks for exact space accounting,
which removals do not preserve. -/
structure TwigBody {K : Type} (exact : Prop) (cfg : Config) (node : BtNode K) (level : ℕ)
    (children : List (ℕ × K)) where
  crc : ℕ
  twig : TwigPage K
  pointers : List (Option ℕ)
  data : node.data = some ⟨crc, level, .twig twig⟩
  keys : twig.entries.map Prod.fst = children.map Prod.snd
  array : node.pointers = some pointers
  length : pointers.length = cfg.geometry.fanout
  within : children.length ≤ cfg.geometry.fanout
  narrow : cfg.geometry.fanout < 2 ^ 16
  linked : pointers.take children.length = children.map (fun z => some z.1)
  free : exact → twig.free + children.length * cfg.geometry.twigNeeded = cfg.geometry.nodeSpace

structure TwigNode {K : Type} (exact : Prop) (cfg : Config) (node : BtNode K) (level : ℕ)
    (children : List (ℕ × K)) extends TwigBody exact cfg node level children where
  keeps : cfg.Keeps node

structure LeafBody {K : Type} (cfg : Config) (node : BtNode K)
    (items : List (K × List UInt8)) where
  crc : ℕ
  leaf : LeafPage K
  data : node.data = some ⟨crc, 1, .leaf leaf⟩
  packed : leaf.Packed cfg.geometry items

structure LeafNode {K : Type} (cfg : Config) (node : BtNode K)
    (items : List (K × List UInt8)) extends LeafBody cfg node items where
  keeps : cfg.Keeps node

namespace Btree

variable {K D : Type} {s s' : Btree K D} {x y level : ℕ} {E : Prop}
  {cs : List (ℕ × K)} {items : List (K × List UInt8)}

def config (s : Btree K D) : Config := ⟨s.super.toGeometry, s.cache.size⟩

def TwigAt (E : Prop) (s : Btree K D) (x level : ℕ) (cs : List (ℕ × K)) : Prop :=
  ∃ node, s.heap x = some node ∧ Nonempty (TwigNode E s.config node level cs)

def TwigIn (E : Prop) (s : Btree K D) (x level : ℕ) (cs : List (ℕ × K)) : Prop :=
  ∃ node, s.heap x = some node ∧ Nonempty (TwigBody E s.config node level cs)

def LeafIn (s : Btree K D) (x : ℕ) (items : List (K × List UInt8)) : Prop :=
  ∃ node, s.heap x = some node ∧ Nonempty (LeafBody s.config node items)

def LeafAt (s : Btree K D) (x : ℕ) (items : List (K × List UInt8)) : Prop :=
  ∃ node, s.heap x = some node ∧ Nonempty (LeafNode s.config node items)

/-- Address `x` holds a node with its block, which it keeps when it is released. -/
def ResidentAt (s : Btree K D) (x : ℕ) : Prop :=
  ∃ node, s.heap x = some node ∧ node.data.isSome ∧ s.config.Keeps node

theorem TwigAt.frame (h : TwigAt E s x level cs) (hc : s'.config = s.config)
    (hx : s'.heap x = s.heap x) : TwigAt E s' x level cs := by
  rwa [TwigAt, hc, hx]

theorem TwigAt.twigIn (h : TwigAt E s x level cs) : TwigIn E s x level cs := by
  obtain ⟨node, hx, ⟨t⟩⟩ := h
  exact ⟨node, hx, ⟨t.toTwigBody⟩⟩

theorem LeafAt.leafIn (h : LeafAt s x items) : LeafIn s x items := by
  obtain ⟨node, hx, ⟨t⟩⟩ := h
  exact ⟨node, hx, ⟨t.toLeafBody⟩⟩

theorem TwigIn.frame (h : TwigIn E s x level cs) (hc : s'.config = s.config)
    (hx : s'.heap x = s.heap x) : TwigIn E s' x level cs := by
  rwa [TwigIn, hc, hx]

theorem LeafIn.frame (h : LeafIn s x items) (hc : s'.config = s.config)
    (hx : s'.heap x = s.heap x) : LeafIn s' x items := by
  rwa [LeafIn, hc, hx]

theorem LeafAt.frame (h : LeafAt s x items) (hc : s'.config = s.config)
    (hx : s'.heap x = s.heap x) : LeafAt s' x items := by
  rwa [LeafAt, hc, hx]

theorem ResidentAt.frame (h : ResidentAt s x) (hc : s'.config = s.config)
    (hx : s'.heap x = s.heap x) : ResidentAt s' x := by
  rwa [ResidentAt, hc, hx]

theorem TwigAt.resident (h : TwigAt E s x level cs) : ResidentAt s x := by
  obtain ⟨node, hx, ⟨t⟩⟩ := h
  exact ⟨node, hx, by rw [t.data]; rfl, t.keeps⟩

theorem LeafAt.resident (h : LeafAt s x items) : ResidentAt s x := by
  obtain ⟨node, hx, ⟨t⟩⟩ := h
  exact ⟨node, hx, by rw [t.data]; rfl, t.keeps⟩

theorem TwigAt.unique {F : Prop} {level' : ℕ} {c' : List (ℕ × K)} (h : TwigAt E s x level cs)
    (h' : TwigAt F s x level' c') : level = level' ∧ cs = c' := by
  obtain ⟨node, hx, ⟨t⟩⟩ := h
  obtain ⟨node', hx', ⟨t'⟩⟩ := h'
  obtain rfl := Option.some.inj (hx.symm.trans hx')
  have hdata := Option.some.inj (t.data.symm.trans t'.data)
  have htwig := PageBody.twig.inj (congrArg Page.body hdata)
  have hp := Option.some.inj (t.array.symm.trans t'.array)
  have hsnd : cs.map Prod.snd = c'.map Prod.snd := by rw [← t.keys, htwig, t'.keys]
  have hlen : cs.length = c'.length := by simpa using congrArg List.length hsnd
  have hfst : cs.map Prod.fst = c'.map Prod.fst := by
    have hlinked : cs.map (fun x => some x.1) = c'.map (fun x => some x.1) := by
      rw [← t.linked, ← t'.linked, hp, hlen]
    have hinj := congrArg (List.map (fun o : Option ℕ => o.getD 0)) hlinked
    simpa only [List.map_map, Function.comp_def, Option.getD_some] using hinj
  exact ⟨congrArg Page.level hdata,
    (List.zip_of_prod hfst hsnd).trans (List.zip_of_prod rfl rfl).symm⟩

theorem TwigAt.length_lt (h : TwigAt E s x level cs) : cs.length < 2 ^ 16 := by
  obtain ⟨node, hx, ⟨t⟩⟩ := h
  exact Nat.lt_of_le_of_lt t.within t.narrow

/-! ## References -/

@[simp] theorem addRef_heap (s : Btree K D) (x : ℕ) (n : ℤ) : (s.addRef x n).heap = s.heap := rfl

@[simp] theorem addRef_config (s : Btree K D) (x : ℕ) (n : ℤ) :
    (s.addRef x n).config = s.config := rfl

@[simp] theorem addRef_root (s : Btree K D) (x : ℕ) (n : ℤ) : (s.addRef x n).root = s.root := rfl

@[simp] theorem addRef_super (s : Btree K D) (x : ℕ) (n : ℤ) : (s.addRef x n).super = s.super := rfl

theorem addRef_cancel (s : Btree K D) (x : ℕ) : (s.addRef x 1).addRef x (-1) = s := by
  simp [addRef, add_assoc, ← Pi.single_add]

theorem addRef_comm (s : Btree K D) (x y : ℕ) (m n : ℤ) :
    (s.addRef x m).addRef y n = (s.addRef y n).addRef x m := by
  simp only [addRef, add_assoc]
  rw [add_comm (Pi.single x m : ℕ → ℤ)]

theorem addRef_self (s : Btree K D) (x : ℕ) (n : ℤ) : (s.addRef x n).refs x = s.refs x + n := by
  simp [addRef]

theorem addRef_nonneg (h : 0 ≤ s.refs) (x : ℕ) : 0 ≤ (s.addRef x 1).refs :=
  add_nonneg h (Pi.single_nonneg.mpr zero_le_one)

variable (env : BtreeEnv K D)

theorem btnodeRelease_resident (h : ResidentAt s x) (hr : 0 < s.refs x) :
    s.btnodeRelease env x = some (s.addRef x (-1)) := by
  obtain ⟨node, hx, -, hk⟩ := h
  have hpos : ¬ s.refs x ≤ 0 := by omega
  simp only [btnodeRelease, hx, Option.bind_eq_bind, Option.bind_some, if_neg hpos,
    Option.pure_def]
  split_ifs with h1 h2
  · rfl
  · rcases hk with hd | hc
    · simp [hd] at h2
    · have hcache : (s.addRef x (-1)).cache.size = 0 := hc
      simp [hcache] at h2
  · rfl

theorem btnodeRelease_added (h : ResidentAt s x) (hr : 0 ≤ s.refs) :
    (s.addRef x 1).btnodeRelease env x = some s := by
  have h' : ResidentAt (s.addRef x 1) x := h.frame rfl rfl
  rw [btnodeRelease_resident env h', addRef_cancel]
  have := hr x
  rw [addRef_self]
  simp only [Pi.zero_apply] at this
  omega

theorem btnodeRead_resident (h : ResidentAt s x) (pointer : NodePointer) :
    s.btnodeRead env x pointer = some (true, s) := by
  obtain ⟨node, hx, hd, -⟩ := h
  simp only [btnodeRead, hx, Option.bind_eq_bind, Option.bind_some, hd, if_true, Option.pure_def]

theorem btreeFetchRoot_resident {r : ℕ} (hr : s.root = some r) (h : ResidentAt s r) :
    s.btreeFetchRoot env = some (some r, s.addRef r 1) := by
  have h' : ResidentAt (s.addRef r 1) r := h.frame rfl rfl
  simp only [btreeFetchRoot, hr, btnodeRead_resident env h', Option.bind_eq_bind,
    Option.bind_some, if_true, Option.pure_def]

theorem btnodeFetchTwig_resident {z : ℕ × K} {i : ℕ} (h : TwigAt E s x level cs)
    (hi : cs[i]? = some z) (hz : ResidentAt s z.1) :
    s.btnodeFetchTwig env x i = some (some z.1, s.addRef z.1 1) := by
  obtain ⟨node, hx, ⟨t⟩⟩ := h
  have hlt : i < cs.length := (List.getElem?_eq_some_iff.mp hi).1
  have hentry : ∃ e, t.twig.entries[i]? = some e := by
    have hlen : t.twig.entries.length = cs.length := by
      simpa using congrArg List.length t.keys
    exact ⟨_, List.getElem?_eq_getElem (by omega)⟩
  obtain ⟨e, he⟩ := hentry
  have hp : t.pointers[i]? = some (some z.1) := by
    have hget : (t.pointers.take cs.length)[i]? = (cs.map (fun z => some z.1))[i]? := by
      rw [t.linked]
    rwa [List.getElem?_take_of_lt hlt, List.getElem?_map, hi] at hget
  have h' : ResidentAt (s.addRef z.1 1) z.1 := hz.frame rfl rfl
  simp only [btnodeFetchTwig, hx, t.data, Page.twig?, t.array, he, hp, Option.bind_eq_bind,
    Option.bind_some, btnodeRead_resident env h', if_true, Option.pure_def]

/-! ## Pages -/

theorem TwigIn.page (h : TwigIn E s x level cs) :
    ∃ crc twig, s.page x = some ⟨crc, level, .twig twig⟩ ∧
      twig.entries.map Prod.fst = cs.map Prod.snd ∧
      (E → twig.free + cs.length * s.super.twigNeeded = s.super.nodeSpace) := by
  obtain ⟨node, hx, ⟨t⟩⟩ := h
  refine ⟨t.crc, t.twig, ?_, t.keys, t.free⟩
  simp only [Btree.page, hx, t.data, Option.bind_eq_bind, Option.bind_some]

theorem LeafIn.page (h : LeafIn s x items) :
    ∃ crc leaf, s.page x = some ⟨crc, 1, .leaf leaf⟩ ∧
      leaf.Packed s.super.toGeometry items := by
  obtain ⟨node, hx, ⟨t⟩⟩ := h
  refine ⟨t.crc, t.leaf, ?_, t.packed⟩
  simp only [Btree.page, hx, t.data, Option.bind_eq_bind, Option.bind_some]

theorem TwigIn.page_items (h : TwigIn E s x level cs) :
    ∃ page, s.page x = some page ∧ page.level = level ∧ page.items = cs.length := by
  obtain ⟨crc, twig, hp, hk, -⟩ := h.page
  refine ⟨_, hp, rfl, ?_⟩
  simpa [Page.items] using congrArg List.length hk

theorem LeafIn.page_items (h : LeafIn s x items) :
    ∃ page, s.page x = some page ∧ page.level = 1 ∧ page.items = items.length := by
  obtain ⟨crc, leaf, hp, hk⟩ := h.page
  exact ⟨_, hp, rfl, hk.length⟩

theorem TwigIn.keys (h : TwigIn E s x level cs) :
    ∃ page, s.page x = some page ∧ page.keys = cs.map Prod.snd := by
  obtain ⟨crc, twig, hp, hk, -⟩ := h.page
  exact ⟨_, hp, hk⟩

theorem LeafIn.keys (h : LeafIn s x items) :
    ∃ page, s.page x = some page ∧ page.keys = items.map Prod.fst := by
  obtain ⟨crc, leaf, hp, hk⟩ := h.page
  exact ⟨_, hp, hk.keys⟩

theorem TwigAt.page (h : TwigAt E s x level cs) :
    ∃ crc twig, s.page x = some ⟨crc, level, .twig twig⟩ ∧
      twig.entries.map Prod.fst = cs.map Prod.snd ∧
      (E → twig.free + cs.length * s.super.twigNeeded = s.super.nodeSpace) := h.twigIn.page

theorem LeafAt.page (h : LeafAt s x items) :
    ∃ crc leaf, s.page x = some ⟨crc, 1, .leaf leaf⟩ ∧
      leaf.Packed s.super.toGeometry items := h.leafIn.page

theorem TwigAt.page_items (h : TwigAt E s x level cs) :
    ∃ page, s.page x = some page ∧ page.level = level ∧ page.items = cs.length :=
  h.twigIn.page_items

theorem LeafAt.page_items (h : LeafAt s x items) :
    ∃ page, s.page x = some page ∧ page.level = 1 ∧ page.items = items.length :=
  h.leafIn.page_items

theorem TwigIn.lastKey [LinearOrder K] {z : ℕ × K} (h : TwigIn E s x level cs)
    (hz : cs.getLast? = some z) : s.lastKey x = some z.2 := by
  obtain ⟨page, hp, hk⟩ := h.keys
  simp only [Btree.lastKey, hp, Option.bind_eq_bind, Option.bind_some, hk, List.getLast?_map, hz,
    Option.map_some]

theorem LeafIn.lastKey [LinearOrder K] {z : K × List UInt8} (h : LeafIn s x items)
    (hz : items.getLast? = some z) : s.lastKey x = some z.1 := by
  obtain ⟨page, hp, hk⟩ := h.keys
  simp only [Btree.lastKey, hp, Option.bind_eq_bind, Option.bind_some, hk, List.getLast?_map, hz,
    Option.map_some]

theorem TwigIn.firstKey [LinearOrder K] {z : ℕ × K} (h : TwigIn E s x level (z :: cs)) :
    s.firstKey x = some z.2 := by
  obtain ⟨page, hp, hk⟩ := h.keys
  simp only [Btree.firstKey, hp, Option.bind_eq_bind, Option.bind_some, hk, List.map_cons,
    List.head?_cons]

theorem LeafIn.firstKey [LinearOrder K] {z : K × List UInt8} (h : LeafIn s x (z :: items)) :
    s.firstKey x = some z.1 := by
  obtain ⟨page, hp, hk⟩ := h.keys
  simp only [Btree.firstKey, hp, Option.bind_eq_bind, Option.bind_some, hk, List.map_cons,
    List.head?_cons]

end Btree

end Carthage
