import Carthage.BtreeInMemoryCalls
import Carthage.BtreeInsertFrame

/-!
# Runs of calls

The calls on a tree that was made by `btree_create` and never written, as a map from keys to
values: a run of calls that the tree admits returns what the map says, leaves a well-formed tree
with the items of the map, and counts them.
-/

namespace Carthage

/-! ## A value of the same size -/

namespace LeafPage

variable {K : Type} {g : Geometry} {p : LeafPage K} {C C' : List (K × List UInt8)} {q : K}
  {old value : List UInt8}

/-- A value that is as long as the old one is written over it. -/
theorem Packed.replaceSame (h : Packed g p (C ++ (q, old) :: C'))
    (hlen : value.length = old.length) :
    ∃ p', p.inlineReplace g C.length value = some p' ∧ Packed g p' (C ++ (q, value) :: C') := by
  have hroom : g.bodyStart (C ++ (q, old) :: C').length +
      (bodies C + (old.length + bodies C')) ≤ g.blockSize := by
    have hroom := h.room
    rwa [bodies_append, bodies_cons] at hroom
  have hcount : (C ++ (q, value) :: C').length = (C ++ (q, old) :: C').length := by simp
  have hbodies : bodies (C ++ (q, value) :: C') = bodies (C ++ (q, old) :: C') := by
    rw [bodies_append, bodies_append, bodies_cons, bodies_cons, hlen]
  have hstart : g.bodyStart p.slots.length = g.bodyStart (C ++ (q, old) :: C').length := by
    rw [h.length]
  let off := g.blockSize - bodies C - old.length
  have hwithin : g.bodyStart p.slots.length ≤ off ∧ off + value.length ≤ g.blockSize := by
    rw [hstart, hlen]
    simp only [off]
    omega
  have hother : ∀ i, i < off ∨ off + value.length ≤ i → p.mem.write off value i = p.mem i := by
    intro i hi
    unfold Bytes.write
    split_ifs with hle
    · rw [List.getD_eq_getElem?_getD, List.getElem?_eq_none (by omega), Option.getD_none]
    · rfl
  have hstored := (stored_append g.blockSize).mp h.stored
  have hoff : g.blockSize - bodies C - value.length = off := by rw [hlen]
  refine ⟨{ p with mem := p.mem.write off value }, ?_, ?_, ?_, ?_, ?_⟩
  · unfold inlineReplace
    rw [h.slot_eq]
    change (p.mem.memcpy _ g.blockSize off value).bind _ = _
    rw [Bytes.memcpy_eq hwithin, Option.bind_some]
    rfl
  · rw [h.slots, layout_append, layout_append, layout, layout, hlen]
  · refine (stored_append g.blockSize).mpr ⟨hstored.1.congr (by omega) fun i hi hi' => ?_, ?_, ?_⟩
    · exact hother i (Or.inr (by simp only [off, hlen]; omega))
    · change (p.mem.write off value).read (g.blockSize - bodies C - value.length) value.length =
        value
      rw [hoff]
      exact Bytes.read_write_self p.mem off value
    · change Stored (p.mem.write off value) (g.blockSize - bodies C - value.length) C'
      rw [hoff]
      refine hstored.2.2.congr ?_ fun i _ hi => hother i (Or.inl hi)
      change bodies C' ≤ g.blockSize - bodies C - old.length
      omega
  · rw [hcount, hbodies]
    exact h.room
  · rw [hcount, hbodies]
    exact h.free

end LeafPage

namespace Btree

variable {K D : Type} {s s' : Btree K D} {x : ℕ} {q : K} {old value : List UInt8} {E : Prop}
  {L A B C C' I : List (K × List UInt8)} {xs pre post : List (ℕ × K)}
  {above : List (List (ℕ × K))} {z : ℕ × K} {place : Place}

theorem leafInlineReplace_same (h : LeafAt s x (C ++ (q, old) :: C'))
    (hlen : value.length = old.length) :
    ∃ s', s.leafInlineReplace x C.length value = some s' ∧ Touches [x] s s' ∧
      s'.super = s.super ∧ LeafAt s' x (C ++ (q, value) :: C') := by
  obtain ⟨node, hx, ⟨t⟩⟩ := h
  obtain ⟨leaf, hreplace, hpacked⟩ := t.packed.replaceSame hlen
  have hreplace' : t.leaf.inlineReplace s.super.toGeometry C.length value = some leaf := hreplace
  refine ⟨s.putLeaf x node ⟨t.crc, 1, .leaf t.leaf⟩ leaf, ?_, ⟨fun y hy => ?_, fun y hy => ?_,
    rfl, rfl, rfl, rfl, rfl, rfl⟩, rfl,
    ⟨_, setNode_heap_self _ _ _, ⟨⟨t.crc, leaf, rfl, hpacked⟩, Or.inl rfl⟩⟩⟩
  · simp only [leafInlineReplace, hx, t.data, Page.leaf?, hreplace', Option.bind_eq_bind,
      Option.bind_some, Option.pure_def]
  · exact setNode_heap_ne s (List.ne_of_not_mem_cons hy) _
  · rw [List.mem_singleton.mp hy, hx]
    exact Option.some_ne_none node

variable [LinearOrder K] (env : BtreeEnv K D)

namespace Shaped

theorem search (h : Shaped E s L xs above) (hr : 0 ≤ s.refs) (q : K) (place : Place) :
    ∃ pre z post A I B place', LeafFor s L xs q pre z post A I B ∧
      place'.index = rank (I.map Prod.fst) q ∧ place'.found = decide (q ∈ I.map Prod.fst) ∧
      (q ∉ L.map Prod.fst → place'.size = place.size) ∧
      (∀ v, (q, v) ∈ I → place'.size = v.length) ∧
      s.btreeLookupLevel env q 1 place = some (some z.1, place', s.addRef z.1 1) :=
  h.leaves.search env h.index h.rising h.levels hr q place

theorem lookup (h : Shaped E s L xs above) (hr : 0 ≤ s.refs) (q : K) (size : ℕ) :
    s.btreeLookup env q size = some (((L.lookup q).getD []).take size, s) := by
  obtain ⟨pre, z, post, I, hloc, hI, -, hrun⟩ := h.index.lookup env (h.leaves.rising h.rising)
    (h.leaves.sorted h.rising) h.levels hr q size
  obtain ⟨A, B, hfor⟩ := leafFor_of_locates h.leaves h.rising hloc hI
  rw [hrun, hfor.lookup]

/-- An insertion of a key that the tree has, with a value of the same size. -/
theorem insert_same (h : Shaped E s L xs above) (hr : 0 ≤ s.refs)
    (hz : LeafFor s L xs q pre z post A (C ++ (q, old) :: C') B)
    (hlen : value.length = old.length) (place : Place) :
    ∃ s', s.btreeInsert env q value place = some (0, s') ∧
      Shaped E s' (A ++ (C ++ (q, value) :: C') ++ B) xs above ∧ s'.super = s.super ∧
      s'.refs = s.refs ∧ s'.fresh = s.fresh ∧ ∀ y, s.heap y = none → s'.heap y = none := by
  obtain ⟨r, hroot⟩ := h.index.root
  obtain ⟨pre', z', post', A', I', B', place', hz', hindex, -, -, hsize, hlook⟩ :=
    h.search env hr q place
  obtain ⟨rfl, rfl, rfl⟩ := hz.locates.unique hz'.locates
  obtain rfl := hz.leaf.unique hz'.leaf
  rw [hz.hit] at hindex
  have hsame : place'.size = value.length := by rw [hsize old (by simp), hlen]
  obtain ⟨page, hp, -⟩ := hz.leaf.page_items
  have hp' : (s.addRef z.1 1).page z.1 = some page := hp
  have hleaf : LeafAt (s.addRef z.1 1) z.1 (C ++ (q, old) :: C') := hz.leaf.frame rfl rfl
  obtain ⟨s₁, hwrite, htouch, hsuper, hleaf₁⟩ := leafInlineReplace_same hleaf hlen
  obtain ⟨hrelease, hrefs⟩ := btnodeRelease_counted env hleaf₁.resident hr htouch.refs
  have hrun : s.btreeInsert env q value place = some (0, s₁.addRef z.1 (-1)) := by
    simp only [btreeInsert, hroot, hlook, hp', hsame, hindex, hwrite, hrelease,
      Option.bind_eq_bind, Option.bind_some, if_true, Option.pure_def]
  have hnames : ∀ y ∈ pre ++ post, y.1 ≠ z.1 := by
    have hl := h.leaves
    rw [hz.locates.split] at hl
    exact hl.names_ne (fun _ _ _ h h' => h.unique h') h.rising
  have hkeys : (C ++ (q, value) :: C').map Prod.fst = (C ++ (q, old) :: C').map Prod.fst := by simp
  obtain ⟨w, hw, hwz⟩ : ∃ w, (C ++ (q, value) :: C').getLast? = some w ∧ w.1 = z.2 := by
    obtain ⟨w, hw, hwz⟩ := hz.last
    have hlast : ((C ++ (q, value) :: C').map Prod.fst).getLast? = some z.2 := by
      rw [hkeys, List.getLast?_map, hw, ← hwz]
      rfl
    rw [List.getLast?_map, Option.map_eq_some_iff] at hlast
    exact hlast
  have hleaves : Leaves s₁ (A ++ (C ++ (q, value) :: C') ++ B) xs := by
    have hleaves := hz.leaves hleaf₁ hw fun y hy J hl =>
      htouch.leafAt (by simpa using hnames y hy) (hl.frame rfl rfl)
    rwa [hwz, ← hz.locates.split] at hleaves
  have hindex₁ : Index E s₁ 1 xs above :=
    htouch.index (fun y hy => ⟨_, List.mem_singleton.mp hy ▸ hleaf.leafIn⟩)
      (h.index.mono rfl fun _ _ _ _ hc => hc.frame rfl rfl)
  have hrising : Rising Prod.fst (A ++ (C ++ (q, value) :: C') ++ B) := by
    have hs := h.rising
    rw [hz.items, rising_map] at hs
    rw [rising_map]
    simpa using hs
  refine ⟨s₁.addRef z.1 (-1), hrun, ⟨Grouped.mono hleaves fun _ _ _ hl => hl.frame rfl rfl,
    hindex₁.mono rfl fun _ _ _ _ hc => hc.frame rfl rfl, hrising, ?_, h.levels⟩, hsuper, hrefs,
    htouch.fresh, fun y hy => ?_⟩
  · exact (congrArg SuperBlock.height hsuper).trans h.height
  · exact (htouch.others y fun hmem => htouch.alive y hmem hy).trans hy

end Shaped

/-! ## Calls on a map -/

/-- A call on a tree; `place` is the content of the local place before the search. -/
inductive Call (K : Type)
  | insert (key : K) (value : List UInt8) (place : Place)
  | remove (key : K)
  | lookup (key : K) (size : ℕ)

/-- The result code of an insertion or a removal, or the bytes that a lookup copies. -/
abbrev Result : Type := ℤ ⊕ List UInt8

/-- The values that keys have. -/
abbrev Items (K : Type) : Type := K → Option (List UInt8)

namespace Call

def run (s : Btree K D) : Call K → Option (Result × Btree K D)
  | insert key value place => (s.btreeInsert env key value place).map fun r => (.inl r.1, r.2)
  | remove key => (s.btreeRemove env key).map fun r => (.inl r.1, r.2)
  | lookup key size => (s.btreeLookup env key size).map fun r => (.inr r.1, r.2)

/-- What a call returns when the tree has the items `m`. -/
def result (m : Items K) : Call K → Result
  | insert _ _ _ => .inl 0
  | remove key => .inl (if m key = none then 2 else 0)
  | lookup key size => .inr (((m key).getD []).take size)

/-- The items after a call. -/
def apply (m : Items K) : Call K → Items K
  | insert key value _ => Function.update m key (some value)
  | remove key => Function.update m key none
  | lookup _ _ => m

end Call

def runCalls : Btree K D → List (Call K) → Option (List Result × Btree K D)
  | s, [] => some ([], s)
  | s, c :: cs => (c.run env s).bind fun r =>
      (runCalls r.2 cs).map fun t => (r.1 :: t.1, t.2)

/-- The results and the items when the calls are made on a map. -/
def onMap : Items K → List (Call K) → List Result × Items K
  | m, [] => ([], m)
  | m, c :: cs => (c.result m :: (onMap (c.apply m) cs).1, (onMap (c.apply m) cs).2)

/-- The values of keys in a list of items. -/
def itemsOf (L : List (K × List UInt8)) : Items K := fun key => L.lookup key

/-- What a call asks of the tree: a new value fits where the search leads, or has the size of the old
one; a removal leaves an item in the leaf, and room for the heads that move. Where `nh_free` need
not be exact, nothing is inserted but values of the same size, and leaves may be emptied. -/
def Admits (E : Prop) (s : Btree K D) (m : Items K) : Call K → Prop
  | .insert key value place =>
      (m key = none ∧ E ∧ place.size ≠ value.length ∧
        s.super.itemNeeded value.length ≤ s.super.nodeSpace ∧ ∃ L, Accepts s L key value) ∨
      ∃ old, m key = some old ∧ value.length = old.length
  | .remove key => s.root ≠ none ∧ (m key = none ∨
      (∃ L xs above pre z post A I B, Shaped E s L xs above ∧
        LeafFor s L xs key pre z post A I B ∧ KeepsItem s I key) ∨
      ¬ E ∧ (∃ L, Removable s L key) ∧ ∃ k, k ≠ key ∧ m k ≠ none)
  | .lookup _ _ => s.root ≠ none

/-- Every call of a run is admitted by the tree that it finds. -/
def AdmitsAll (E : Prop) : Btree K D → Items K → List (Call K) → Prop
  | _, _, [] => True
  | s, m, c :: cs => Admits E s m c ∧ ∀ r s', c.run env s = some (r, s') →
      AdmitsAll E s' (c.apply m) cs

/-- A tree with the items `L` in a handle that `b` is the beginning of. -/
structure Kept (E : Prop) (b s : Btree K D) (L : List (K × List UInt8)) : Prop where
  created : s.super.toGeometry.Created
  quiet : s.Quiet
  memory : InMemory s.frame [] s
  cache : s.cache = b.cache
  disk : s.disk = b.disk
  superOffset : s.superOffset = b.superOffset
  magic : s.super.magic = b.super.magic
  nodeMagic : s.super.nodeMagic = b.super.nodeMagic
  shape : s.root = none ∧ s.super.height = 1 ∧ L = [] ∨ ∃ xs above, Shaped E s L xs above
  counted : E → s.super.itemCount = L.length % 2 ^ 64 ∧
    s.super.storedData = (L.map fun x => x.2.length).sum % 2 ^ 64

/-! ## Items of a tree -/

omit [LinearOrder K] in
theorem InMemory.self {f : Frame K D} {N : List ℕ} (h : InMemory f N s) : InMemory s.frame N s :=
  ⟨rfl, h.node⟩

theorem Shaped.items_unique {L' : List (K × List UInt8)} {xs' : List (ℕ × K)}
    {above' : List (List (ℕ × K))} {F : Prop} (h : Shaped E s L xs above)
    (hl : Leaves s L' xs') (hi : Index F s 1 xs' above') : L' = L := by
  obtain ⟨r, hr, hsub⟩ := h.index.subtree le_rfl h.leaves
  obtain ⟨r', hr', hsub'⟩ := hi.subtree le_rfl hl
  obtain rfl := Option.some.inj (hr.symm.trans hr')
  exact (hsub'.unique hsub).2

theorem Shaped.root_ne (h : Shaped E s L xs above) : s.root ≠ none := by
  obtain ⟨r, hr⟩ := h.index.root
  rw [hr]
  exact Option.some_ne_none r

theorem Shaped.rooted (h : Shaped E s L xs above) : s.frame.rooted = true :=
  Option.isSome_iff_ne_none.mpr h.root_ne

theorem lookup_eq_none_iff (q : K) : L.lookup q = none ↔ q ∉ L.map Prod.fst := by
  refine ⟨fun hno hmem => ?_, lookup_of_notMem⟩
  obtain ⟨⟨k, v⟩, hv, rfl⟩ := List.mem_map.mp hmem
  rw [List.lookup_eq_none_iff] at hno
  simpa using hno (k, v) hv

theorem itemsOf_of_mem {L' : List (K × List UInt8)} (hs' : Rising Prod.fst L') {m : Items K}
    (hm : ∀ k v, (k, v) ∈ L' ↔ m k = some v) : itemsOf L' = m := by
  funext k
  cases hk : m k with
  | some v => exact lookup_of_mem hs' ((hm k v).mpr hk)
  | none =>
      refine lookup_of_notMem fun hmem => ?_
      obtain ⟨⟨k', v⟩, hv, rfl⟩ := List.mem_map.mp hmem
      rw [(hm k' v).mp hv] at hk
      cases hk

theorem mem_iff_itemsOf (hs : Rising Prod.fst L) (k : K) (v : List UInt8) :
    (k, v) ∈ L ↔ itemsOf L k = some v := by
  refine ⟨lookup_of_mem hs, fun h => ?_⟩
  by_cases hmem : k ∈ L.map Prod.fst
  · obtain ⟨⟨k', v'⟩, hv, rfl⟩ := List.mem_map.mp hmem
    obtain rfl := Option.some.inj ((lookup_of_mem hs hv).symm.trans h)
    exact hv
  · rw [itemsOf, lookup_of_notMem hmem] at h
    cases h

omit [LinearOrder K] in
theorem Index.lax {level : ℕ} (h : Index E s level xs above) : Index False s level xs above := by
  induction above generalizing level xs with
  | nil => exact h
  | cons ys above ih => exact ⟨h.1.mono fun y _ cs hc => TwigAt.weaken hc, ih h.2⟩

namespace Kept

variable {b : Btree K D} {env}

theorem rising (h : Kept E b s L) : Rising Prod.fst L := by
  rcases h.shape with ⟨-, -, rfl⟩ | ⟨xs, above, hs⟩
  · exact List.Pairwise.nil
  · exact hs.rising

omit [LinearOrder K] in
theorem body_le {x : ℕ} {I : List (K × List UInt8)} {e : K × List UInt8} (hx : LeafAt s x I)
    (he : e ∈ I) : e.2.length ≤ s.super.blockSize := by
  obtain ⟨node, -, ⟨hl⟩⟩ := hx
  have hroom := hl.packed.room
  have hle : e.2.length ≤ LeafPage.bodies I :=
    List.single_le_sum (fun _ _ => Nat.zero_le _) _ (List.mem_map_of_mem he)
  exact hle.trans (le_of_add_le_right hroom)

theorem shaped (h : Kept E b s L) (hroot : s.root ≠ none) : ∃ xs above, Shaped E s L xs above :=
  h.shape.resolve_left fun hno => hroot hno.1

theorem added (h : Kept True b s L)
    (hlarge : s.super.itemNeeded value.length ≤ s.super.nodeSpace)
    (hadds : Adds env s L q value place)
    (hmem : ∀ s', s.btreeInsert env q value place = some (0, s') →
      InMemory ({ s.frame with rooted := true }.gain value.length) [] s') :
    ∃ s' L', s.btreeInsert env q value place = some (0, s') ∧ Kept True b s' L' ∧
      s'.root ≠ none ∧ L'.Perm ((q, value) :: L) := by
  obtain ⟨s', L', xs', above', hrun, hrefs, hperm, hstand, -⟩ := hadds
  obtain ⟨hcount, hstored⟩ := h.counted trivial
  have hsmall : value.length < 2 ^ 64 := by
    have hblock := h.created.blockSize
    unfold Geometry.itemNeeded Geometry.nodeSpace at hlarge
    omega
  have hm := hmem s' hrun
  have hframe := hm.frame
  have hshaped : Shaped True s' L' xs' above' := ⟨hstand.leaves, hstand.index, hstand.rising, by
    rw [hstand.height, Nat.add_comm 1, Nat.add_assoc], hstand.levels⟩
  refine ⟨s', L', hrun, ⟨hstand.ready.created, ⟨hrefs.trans h.quiet.refs, fun y hy =>
    (hstand.ready.blank y hy).1⟩, hm.self, ?_, ?_, ?_, ?_, ?_, Or.inr ⟨xs', above', hshaped⟩,
    fun _ => ⟨?_, ?_⟩⟩, hshaped.root_ne, hperm⟩
  · exact (congrArg Frame.cache hframe).trans h.cache
  · exact (congrArg Frame.disk hframe).trans h.disk
  · exact (congrArg Frame.superOffset hframe).trans h.superOffset
  · exact (congrArg Frame.magic hframe).trans h.magic
  · exact (congrArg Frame.nodeMagic hframe).trans h.nodeMagic
  · have hitems : s'.super.itemCount = add64 s.super.itemCount 1 :=
      congrArg Frame.itemCount hframe
    rw [hperm.length_eq, List.length_cons, hitems, hcount, add64_mod (by decide)]
  · have hbytes : s'.super.storedData = add64 s.super.storedData value.length :=
      congrArg Frame.storedData hframe
    rw [(hperm.map _).sum_eq, List.map_cons, List.sum_cons, Nat.add_comm, hbytes, hstored,
      add64_mod hsmall]

theorem insert_new (hg : ∀ n, env.granted n = true) (h : Kept True b s L)
    (hq : q ∉ L.map Prod.fst) (hsize : place.size ≠ value.length)
    (hlarge : s.super.itemNeeded value.length ≤ s.super.nodeSpace)
    (hacc : ∃ L, Accepts s L q value) :
    ∃ s' L', s.btreeInsert env q value place = some (0, s') ∧ Kept True b s' L' ∧
      s'.root ≠ none ∧ L'.Perm ((q, value) :: L) := by
  have hready : Ready s := ⟨h.quiet.refs.ge, fun y hy => ⟨h.quiet.blank y hy,
    congrFun h.quiet.refs y⟩, h.created⟩
  rcases h.shape with ⟨hroot, hheight, rfl⟩ | ⟨xs, above, hs⟩
  · exact h.added hlarge (insert_first env ⟨hg _, hg _⟩ hready hroot hheight hlarge) fun s' hrun =>
      h.memory.insert_first hg hroot hheight hrun
  · have hf := hs.rooted
    obtain ⟨L₁, hroot | ⟨xs₁, above₁, pre, z, post, A, I, B, ht, hz, hcond⟩⟩ := hacc
    · exact absurd hroot hs.root_ne
    obtain rfl := hs.items_unique ht.leaves ht.index
    have hstand : Standing s L₁ xs₁ above₁ := ht.standing hready
    have hadds := (insert_iff env hg hstand ht.levels hz hq hsize hlarge).mpr hcond
    obtain ⟨pre', z', post', A', I', B', place', hz', -, hfound, hmiss, -, hlook⟩ :=
      hs.search env hready.refs q place
    have hq' : q ∉ I'.map Prod.fst := fun hmem => hq (hz'.key_mem_iff.mpr hmem)
    rw [decide_eq_false hq'] at hfound
    refine h.added hlarge hadds fun s' hrun => ?_
    have hframe : ({ s.frame with rooted := true } : Frame K D) = s.frame := by rw [← hf]
    rw [hframe]
    exact h.memory.insert_miss hg hf hlook hfound (hmiss hq ▸ hsize) hrun

theorem root_ne (h : Kept E b s L) (hq : itemsOf L q = some old) : s.root ≠ none := by
  have hmem := (mem_iff_itemsOf h.rising q old).mpr hq
  rcases h.shape with ⟨-, -, rfl⟩ | ⟨xs, above, hs⟩
  · cases hmem
  · exact hs.root_ne

variable (env) in
theorem locate (h : Kept E b s L) (hs : Shaped E s L xs above) (hq : itemsOf L q = some old)
    (place : Place) : ∃ pre z post A C C' B place',
      LeafFor s L xs q pre z post A (C ++ (q, old) :: C') B ∧ place'.index = C.length ∧
      place'.found = true ∧ place'.size = old.length ∧
      s.btreeLookupLevel env q 1 place = some (some z.1, place', s.addRef z.1 1) := by
  have hmem : (q, old) ∈ L := (mem_iff_itemsOf h.rising q old).mpr hq
  obtain ⟨pre, z, post, A, I, B, place', hz, hindex, hfound, -, hsize, hlook⟩ :=
    hs.search env h.quiet.refs.ge q place
  have hI : (q, old) ∈ I := (hz.mem_iff old).mp hmem
  obtain ⟨C, C', rfl, -⟩ := rank_of_mem hz.rising hI
  rw [decide_eq_true (List.mem_map_of_mem (f := Prod.fst) hI)] at hfound
  rw [hz.hit] at hindex
  exact ⟨pre, z, post, A, C, C', B, place', hz, hindex, hfound, hsize old hI, hlook⟩

theorem after {n m : ℕ} {L' : List (K × List UInt8)} {xs' : List (ℕ × K)}
    {above' : List (List (ℕ × K))} (h : Kept E b s L) (hm : InMemory (s.frame.counted n m) [] s')
    (hc : s'.super.toGeometry.Created) (hq : s'.Quiet) (hs : Shaped E s' L' xs' above')
    (hcount : E → n = L'.length % 2 ^ 64 ∧ m = (L'.map fun x => x.2.length).sum % 2 ^ 64) :
    Kept E b s' L' := by
  have hframe := hm.frame
  refine ⟨hc, hq, hm.self, ?_, ?_, ?_, ?_, ?_, Or.inr ⟨xs', above', hs⟩,
    fun hE => ⟨?_, ?_⟩⟩
  · exact (congrArg Frame.cache hframe).trans h.cache
  · exact (congrArg Frame.disk hframe).trans h.disk
  · exact (congrArg Frame.superOffset hframe).trans h.superOffset
  · exact (congrArg Frame.magic hframe).trans h.magic
  · exact (congrArg Frame.nodeMagic hframe).trans h.nodeMagic
  · exact (congrArg Frame.itemCount hframe).trans (hcount hE).1
  · exact (congrArg Frame.storedData hframe).trans (hcount hE).2

variable (env) in
theorem insert_same (h : Kept E b s L) (hq : itemsOf L q = some old)
    (hlen : value.length = old.length) (place : Place) :
    ∃ s' L', s.btreeInsert env q value place = some (0, s') ∧ Kept E b s' L' ∧
      itemsOf L' = Function.update (itemsOf L) q (some value) := by
  obtain ⟨xs, above, hs⟩ := h.shaped (h.root_ne hq)
  obtain ⟨pre, z, post, A, C, C', B, place', hz, -, -, hsize, hlook⟩ := h.locate env hs hq place
  obtain ⟨s', hrun, hs', hsuper, hrefs, hfresh, habsent⟩ :=
    hs.insert_same env h.quiet.refs.ge hz hlen place
  have hm : InMemory (s.frame.counted s.super.itemCount s.super.storedData) [] s' :=
    h.memory.insert_same hs.rooted hlook (hsize.trans hlen.symm) hrun
  have hquiet : s'.Quiet := ⟨hrefs.trans h.quiet.refs, fun y hy =>
    habsent y (h.quiet.blank y (hfresh ▸ hy))⟩
  refine ⟨s', _, hrun, h.after hm (hsuper ▸ h.created) hquiet hs' fun hE => ?_,
    itemsOf_of_mem hs'.rising fun k v => ?_⟩
  · obtain ⟨hcount, hstored⟩ := h.counted hE
    rw [hcount, hstored, hz.items]
    simp [hlen]
  · by_cases hk : k = q
    · subst hk
      have hnew : itemsOf (A ++ (C ++ (k, value) :: C') ++ B) k = some value :=
        lookup_of_mem hs'.rising (by simp)
      rw [Function.update_self, mem_iff_itemsOf hs'.rising, hnew]
    · rw [Function.update_of_ne hk, ← mem_iff_itemsOf h.rising, hz.items]
      simp [hk]

theorem itemsOf_eraseKey (h : Kept E b s L) (q : K) :
    itemsOf (eraseKey L q) = Function.update (itemsOf L) q none := by
  have hs : Rising Prod.fst (eraseKey L q) := h.rising.sublist List.filter_sublist
  refine itemsOf_of_mem hs fun k v => ?_
  rw [mem_eraseKey]
  by_cases hk : k = q
  · subst hk
    simp
  · rw [Function.update_of_ne hk, ← mem_iff_itemsOf h.rising, and_iff_left hk]

theorem remove_missing (h : Kept E b s L) (hroot : s.root ≠ none) (hq : itemsOf L q = none) :
    s.btreeRemove env q = some (2, s) := by
  obtain ⟨xs, above, hs⟩ := h.shaped hroot
  obtain ⟨pre, z, post, A, I, B, place, hz, -, hfound, -, -, hlook⟩ :=
    hs.search env h.quiet.refs.ge q noPlace
  have hno : q ∉ I.map Prod.fst := fun hmem =>
    (lookup_eq_none_iff q).mp hq (hz.key_mem_iff.mpr hmem)
  rw [decide_eq_false hno] at hfound
  have hrelease := btnodeRelease_added env hz.leaf.resident h.quiet.refs.ge
  simp only [btreeRemove, hlook, hfound, hrelease, Option.bind_eq_bind, Option.bind_some,
    Bool.not_false, if_true, Option.pure_def]

theorem remove_in_leaf (h : Kept E b s L) (hq : itemsOf L q = some old)
    {I : List (K × List UInt8)} (hs : Shaped E s L xs above)
    (hz : LeafFor s L xs q pre z post A I B) (hkeeps : KeepsItem s I q) :
    ∃ s', s.btreeRemove env q = some (0, s') ∧ Kept E b s' (eraseKey L q) := by
  obtain ⟨pre', z', post', A', C, C', B', place, hz', hindex, hfound, -, hlook⟩ :=
    h.locate env hs hq noPlace
  obtain ⟨rfl, rfl, rfl⟩ := hz.locates.unique hz'.locates
  obtain rfl := hz.leaf.unique hz'.leaf
  obtain ⟨page, hp, -, hcount⟩ := hz.leaf.page_items
  obtain ⟨hlen, hm⟩ := hkeeps
  rw [hz'.hit] at hm
  have hcut : (C ++ (q, old) :: C').length = (C ++ C').length + 1 := by simp; omega
  obtain ⟨s', hrest, hloses⟩ := hs.remove_item env h.created.blockSize h.quiet.refs.ge hz'
    (List.length_pos_iff.mp (by omega)) hm
  have hrun := btreeRemove_hit env hlook hfound hp
  rw [if_neg (by omega), hindex, hrest] at hrun
  obtain ⟨n, m, hm⟩ := h.memory.remove_hit hs.rooted hlook hfound hp hrun
  obtain ⟨xs', above', hs', -⟩ := hloses.shaped
  have herase := eraseKey_item hz'.items h.rising
  rw [← herase] at hs'
  have hframe := hm.frame
  have hsuper := hloses.super
  have hgeometry : s'.super.toGeometry = s.super.toGeometry :=
    congrArg Config.geometry hloses.config
  refine ⟨s', hrun, h.after hm (hgeometry ▸ h.created)
    ⟨hloses.refs.trans h.quiet.refs, fun y hy =>
      hloses.absent y (h.quiet.blank y (hloses.fresh ▸ hy))⟩ hs' fun hE => ?_⟩
  obtain ⟨hitems, hstored⟩ := h.counted hE
  have hn : n = sub64 s.super.itemCount 1 :=
    (congrArg Frame.itemCount hframe).symm.trans (congrArg SuperBlock.itemCount hsuper)
  have hm : m = sub64 s.super.storedData old.length :=
    (congrArg Frame.storedData hframe).symm.trans (congrArg SuperBlock.storedData hsuper)
  have hle : L.length = (eraseKey L q).length + 1 ∧ (L.map fun x => x.2.length).sum =
      ((eraseKey L q).map fun x => x.2.length).sum + old.length := by
    rw [herase, hz'.items]
    simp only [List.map_append, List.map_cons, List.sum_append, List.sum_cons, List.length_append,
      List.length_cons]
    omega
  have hold : old.length < 2 ^ 64 := by
    have hblock := h.created.blockSize
    have hfits : old.length ≤ s.super.blockSize :=
      body_le hz'.leaf (List.mem_append_right C List.mem_cons_self)
    omega
  rw [hn, hm, hitems, hstored, hle.1, hle.2, sub64_mod (by decide), sub64_mod hold]
  exact ⟨rfl, rfl⟩

theorem remove_node (h : Kept False b s L) (hq : itemsOf L q = some old)
    (hremovable : ∃ L, Removable s L q) {k : K} (hk : k ≠ q) (hne : itemsOf L k ≠ none) :
    ∃ s', s.btreeRemove env q = some (0, s') ∧ Kept False b s' (eraseKey L q) := by
  have hroot := h.root_ne hq
  obtain ⟨xs, above, hs⟩ := h.shaped hroot
  obtain ⟨pre, z, post, A, C, C', B, place, hz, -, hfound, -, hlook⟩ :=
    h.locate env hs hq noPlace
  obtain ⟨page, hp, -⟩ := hz.leaf.page_items
  obtain ⟨L₁, hremovable⟩ := hremovable
  obtain ⟨xs₁, above₁, pre₁, z₁, post₁, A₁, I₁, B₁, ht, -⟩ := id hremovable
  obtain rfl := hs.items_unique ht.leaves ht.index
  have hmem : q ∈ L₁.map Prod.fst :=
    List.mem_map_of_mem (f := Prod.fst) ((mem_iff_itemsOf h.rising q old).mpr hq)
  obtain ⟨s', hrun, hformed⟩ := (removes_iff env ⟨h.created, h.quiet, Or.inr ⟨_, _, ht⟩⟩ hmem).mpr
    hremovable
  obtain ⟨n, m, hm⟩ := h.memory.remove_hit hs.rooted hlook hfound hp hrun
  obtain ⟨w, hw⟩ := Option.ne_none_iff_exists'.mp hne
  have hleft : (k, w) ∈ eraseKey L₁ q := mem_eraseKey.mpr ⟨(mem_iff_itemsOf h.rising k w).mpr hw, hk⟩
  obtain ⟨⟨hcreated, hquiet, hshape⟩, -⟩ := hformed.resolve_right fun hno => by
    rw [hno.2] at hleft
    cases hleft
  obtain ⟨xs', above', ht'⟩ := hshape.resolve_left fun hno => by
    rw [hno.2.2] at hleft
    cases hleft
  exact ⟨s', hrun, h.after hm hcreated hquiet ht'.shaped fun hE => hE.elim⟩

theorem lookup (h : Kept E b s L) (hroot : s.root ≠ none) (q : K) (size : ℕ) :
    s.btreeLookup env q size = some (((itemsOf L q).getD []).take size, s) := by
  obtain ⟨xs, above, hs⟩ := h.shaped hroot
  exact hs.lookup env h.quiet.refs.ge q size

/-- An admitted call returns what the map says, and leaves its items. -/
theorem step (hg : ∀ n, env.granted n = true) (h : Kept E b s L) {c : Call K}
    (hc : Admits E s (itemsOf L) c) :
    ∃ s' L', c.run env s = some (c.result (itemsOf L), s') ∧ Kept E b s' L' ∧
      itemsOf L' = c.apply (itemsOf L) := by
  cases c with
  | insert key value place =>
      simp only [Call.run, Call.result, Call.apply]
      rcases hc with ⟨hmiss, hE, hsize, hlarge, hacc⟩ | ⟨old, hhit, hlen⟩
      · obtain rfl : E = True := eq_true hE
        have hq := (lookup_eq_none_iff key).mp hmiss
        obtain ⟨s', L', hrun, hkept, -, hperm⟩ := h.insert_new hg hq hsize hlarge hacc
        refine ⟨s', L', by rw [hrun]; rfl, hkept, itemsOf_of_mem hkept.rising fun k v => ?_⟩
        rw [hperm.mem_iff, List.mem_cons, Prod.mk.injEq]
        by_cases hk : k = key
        · subst hk
          have hno : (k, v) ∉ L := fun hmem => hq (List.mem_map_of_mem (f := Prod.fst) hmem)
          rw [Function.update_self, or_iff_left hno, and_iff_right rfl, Option.some_inj, eq_comm]
        · rw [Function.update_of_ne hk, ← mem_iff_itemsOf h.rising,
            or_iff_right fun heq => hk heq.1]
      · obtain ⟨s', L', hrun, hkept, hitems⟩ := h.insert_same env hhit hlen place
        exact ⟨s', L', by rw [hrun]; rfl, hkept, hitems⟩
  | remove key =>
      simp only [Call.run, Call.result, Call.apply]
      obtain ⟨hroot, hc⟩ := hc
      cases hitem : itemsOf L key with
      | none =>
          rw [h.remove_missing hroot hitem]
          refine ⟨s, L, rfl, h, ?_⟩
          rw [← hitem, Function.update_eq_self]
      | some old =>
          have hleaf : ∃ s', s.btreeRemove env key = some (0, s') ∧
              Kept E b s' (eraseKey L key) := by
            rcases hc with hno | ⟨L₁, xs, above, pre, z, post, A, I, B, hs, hz, hkeeps⟩ |
              ⟨hE, hremovable, k, hk, hne⟩
            · rw [hitem] at hno
              cases hno
            · obtain ⟨xs', above', hs'⟩ := h.shaped hroot
              obtain rfl := hs'.items_unique hs.leaves hs.index
              exact h.remove_in_leaf hitem hs hz hkeeps
            · obtain rfl : E = False := eq_false hE
              exact h.remove_node hitem hremovable hk hne
          obtain ⟨s', hrun, hkept⟩ := hleaf
          refine ⟨s', _, ?_, hkept, h.itemsOf_eraseKey key⟩
          rw [hrun, if_neg (Option.some_ne_none old)]
          rfl
  | lookup key size => exact ⟨s, L, by rw [Call.run, h.lookup hc]; rfl, h, rfl⟩

theorem admitsAll_cons (hg : ∀ n, env.granted n = true) (h : Kept E b s L) {c : Call K}
    {cs : List (Call K)} (hc : Admits E s (itemsOf L) c)
    (hcs : ∀ s' L', Kept E b s' L' → itemsOf L' = c.apply (itemsOf L) →
      AdmitsAll env E s' (itemsOf L') cs) : AdmitsAll env E s (itemsOf L) (c :: cs) := by
  refine ⟨hc, fun r s' hrun => ?_⟩
  obtain ⟨s₁, L₁, hrun₁, hkept, hitems⟩ := h.step hg hc
  rw [hrun] at hrun₁
  obtain ⟨-, rfl⟩ := Prod.mk.inj (Option.some.inj hrun₁)
  exact hitems ▸ hcs s' L₁ hkept hitems

theorem runCalls (hg : ∀ n, env.granted n = true) (h : Kept E b s L) {cs : List (Call K)}
    (hcs : AdmitsAll env E s (itemsOf L) cs) :
    ∃ s' L', s.runCalls env cs = some ((onMap (itemsOf L) cs).1, s') ∧ Kept E b s' L' ∧
      itemsOf L' = (onMap (itemsOf L) cs).2 := by
  induction cs generalizing s L with
  | nil => exact ⟨s, L, rfl, h, rfl⟩
  | cons c cs ih =>
      obtain ⟨hc, hcs⟩ := hcs
      obtain ⟨s₁, L₁, hrun, hkept, hitems⟩ := h.step hg hc
      have hrest := hcs _ s₁ hrun
      rw [← hitems] at hrest
      obtain ⟨s', L', hruns, hkept', hitems'⟩ := ih hkept hrest
      refine ⟨s', L', ?_, hkept', ?_⟩
      · rw [Btree.runCalls, hrun, Option.bind_some, hruns, onMap, hitems]
        rfl
      · rw [hitems', onMap, hitems]

theorem lax (h : Kept E b s L) : Kept False b s L :=
  ⟨h.created, h.quiet, h.memory, h.cache, h.disk, h.superOffset, h.magic, h.nodeMagic,
    h.shape.imp_right fun ⟨xs, above, hs⟩ => ⟨xs, above, hs.leaves, hs.index.lax, hs.rising,
      hs.height, hs.levels⟩, False.elim⟩

end Kept

/-! ## From the creation on -/

variable {env} {b : Btree K D} {disk : D}
  {cacheSize superOffset blockSize keySize magic nodeMagic : ℕ}

omit [LinearOrder K] in
theorem btreeCreate_eq (hg : ∀ n, env.granted n = true) (hkey : keySize < 2 ^ 16)
    (hblock : blockSize < 2 ^ 32)
    (h : btreeCreate env disk cacheSize superOffset blockSize keySize magic nodeMagic = some b) :
    b.super.toGeometry.Created ∧ b.cache = Cache.open cacheSize true true ∧ b.disk = disk ∧
      b.superOffset = superOffset ∧ b.super.magic = magic ∧ b.super.nodeMagic = nodeMagic := by
  unfold btreeCreate at h
  split_ifs at h with hsmall
  obtain rfl := Option.some.inj h
  have hk : keySize % 2 ^ 16 = keySize := Nat.mod_eq_of_lt hkey
  have hk4 : keySize * 4 % 2 ^ 32 = keySize * 4 := Nat.mod_eq_of_lt (by omega)
  rw [hk4] at hsmall
  refine ⟨⟨rfl, Nat.mod_lt _ (by omega), hblock, rfl, ?_⟩, ?_, rfl, rfl, rfl, rfl⟩
  · change 16 + 4 * (8 + keySize % 2 ^ 16 * 4) ≤ blockSize
    omega
  · simp only [hg]

theorem btreeCreate_kept (hg : ∀ n, env.granted n = true) (hkey : keySize < 2 ^ 16)
    (hblock : blockSize < 2 ^ 32)
    (h : btreeCreate env disk cacheSize superOffset blockSize keySize magic nodeMagic = some b) :
    Kept True b b [] := by
  obtain ⟨hcreated, -⟩ := btreeCreate_eq hg hkey hblock h
  unfold btreeCreate at h
  split_ifs at h
  obtain rfl := Option.some.inj h
  exact ⟨hcreated, ⟨rfl, fun _ _ => rfl⟩, ⟨rfl, fun _ _ hx => (nomatch hx)⟩, rfl, rfl, rfl, rfl, rfl,
    Or.inl ⟨rfl, rfl, rfl⟩, fun _ => ⟨rfl, rfl⟩⟩

/-- No items. -/
def noItems : Items K := fun _ => none

/-- A tree is a map from keys to values, from its creation on. Its super block counts the items and
the bytes of their values, as long as no node is freed. -/
theorem btreeCreate_calls (hg : ∀ n, env.granted n = true) (hkey : keySize < 2 ^ 16)
    (hblock : blockSize < 2 ^ 32)
    (h : btreeCreate env disk cacheSize superOffset blockSize keySize magic nodeMagic = some b)
    {cs : List (Call K)} (hcs : AdmitsAll env True b noItems cs) :
    ∃ s L, b.runCalls env cs = some ((onMap noItems cs).1, s) ∧
      itemsOf L = (onMap noItems cs).2 ∧ Rising Prod.fst L ∧
      s.super.itemCount = L.length % 2 ^ 64 ∧
      s.super.storedData = (L.map fun x => x.2.length).sum % 2 ^ 64 ∧
      ∀ cs', AdmitsAll env False s (itemsOf L) cs' →
        ∃ s', s.runCalls env cs' = some ((onMap (itemsOf L) cs').1, s') := by
  obtain ⟨s, L, hrun, hkept, hitems⟩ := (btreeCreate_kept hg hkey hblock h).runCalls hg hcs
  obtain ⟨hcount, hstored⟩ := hkept.counted trivial
  refine ⟨s, L, hrun, hitems, hkept.rising, hcount, hstored, fun cs' hcs' => ?_⟩
  obtain ⟨s', -, hrun', -, -⟩ := hkept.lax.runCalls hg hcs'
  exact ⟨s', hrun'⟩

def fewCalls : List (Call ℕ) :=
  [.insert 5 [1, 2] noPlace, .lookup 5 1, .insert 5 [3, 4] noPlace, .remove 7, .lookup 5 8]

theorem fewCalls_admitted {env : BtreeEnv ℕ D} {b : Btree ℕ D}
    (hg : ∀ n, env.granted n = true)
    (h : btreeCreate env disk cacheSize superOffset 112 4 magic nodeMagic = some b) :
    AdmitsAll env True b noItems fewCalls := by
  have hb : Kept True b b [] := btreeCreate_kept hg (by decide) (by decide) h
  have hroot : ∀ {s L v}, Kept True b s L → itemsOf L 5 = some v → s.root ≠ none :=
    fun h hv => h.root_ne hv
  obtain rfl := Option.some.inj h
  have hsize : 4 + 8 + 2 ≤ 112 - 16 := by decide
  refine hb.admitsAll_cons hg (Or.inl ⟨rfl, trivial, by decide, hsize, [], Or.inl rfl⟩) ?_
  intro s₁ L₁ h₁ hL₁
  have hv₁ : itemsOf L₁ 5 = some [1, 2] := by rw [hL₁]; rfl
  refine h₁.admitsAll_cons hg (hroot h₁ hv₁) fun s₂ L₂ h₂ hL₂ => ?_
  have hv₂ : itemsOf L₂ 5 = some [1, 2] := by rw [hL₂]; exact hv₁
  refine h₂.admitsAll_cons hg (Or.inr ⟨_, hv₂, rfl⟩) fun s₃ L₃ h₃ hL₃ => ?_
  have hv₃ : itemsOf L₃ 5 = some [3, 4] := by rw [hL₃]; rfl
  have hno₃ : itemsOf L₃ 7 = none := by
    rw [hL₃, Call.apply, Function.update_of_ne (by decide), hL₂, Call.apply, hL₁]
    rfl
  refine h₃.admitsAll_cons hg ⟨hroot h₃ hv₃, Or.inl hno₃⟩ fun s₄ L₄ h₄ hL₄ => ?_
  have hv₄ : itemsOf L₄ 5 = some [3, 4] := by
    rw [hL₄, Call.apply, Function.update_of_ne (by decide)]
    exact hv₃
  exact h₄.admitsAll_cons hg (hroot h₄ hv₄) fun _ _ _ _ => trivial

/-- A value is found, replaced, and found again. -/
theorem btreeCreate_calls_few : ∃ (b s : Btree ℕ Unit) (L : List (ℕ × List UInt8)),
    btreeCreate memoryEnv () 0 0 112 4 0 0 = some b ∧
      b.runCalls memoryEnv fewCalls =
        some ([.inl 0, .inr [1], .inl 0, .inl 2, .inr [3, 4]], s) ∧
      s.super.itemCount = L.length % 2 ^ 64 ∧ itemsOf L 5 = some [3, 4] := by
  obtain ⟨b, hb⟩ : ∃ b, btreeCreate (K := ℕ) memoryEnv () 0 0 112 4 0 0 = some b := ⟨_, rfl⟩
  obtain ⟨s, L, hrun, hitems, -, hcount, -⟩ := btreeCreate_calls (fun _ => rfl) (by decide)
    (by decide) hb (fewCalls_admitted (fun _ => rfl) hb)
  refine ⟨b, s, L, hb, ?_, hcount, ?_⟩
  · rw [hrun]
    rfl
  · rw [hitems]
    rfl

end Btree

end Carthage
