import Carthage.BtreeStored
import Carthage.BtreeSubtree

/-!
# Writing a tree to disk

`__btree_sync` on a resident tree that has not been on disk: the blocks are written from the leaves
up, each in a new region, and a parent gets the pointer to each block that was written. What was
written before can still be read. A written node leaves its block to the cache.
-/

namespace Carthage

variable {K D : Type}

/-- What lies in the regions of a disk, with the size that it was written with. -/
abbrev DiskStore (K D : Type) : Type := D → ℕ → Option (DiskBlock K × ℕ)

/-- A driver that writes a block without a region to a new one, never to `reserved`, and another
one where it is, and that reads back what was written. -/
structure Faithful (env : BtreeEnv K D) (store : DiskStore K D) (reserved : ℕ) : Prop where
  append : ∀ d n block size, ∃ b d', env.write d 0 n block size = (b, d') ∧ b ≠ 0 ∧ b ≠ reserved ∧
    store d b = none ∧ store d' = Function.update (store d) b (some (block, size))
  rewrite : ∀ d b block size, b ≠ 0 → ∃ d', env.write d b size block size = (b, d') ∧
    store d' = Function.update (store d) b (some (block, size))
  read : ∀ d b block size, store d b = some (block, size) → env.read d b size = some block

/-- The node blocks on a disk. -/
def DiskStore.pages (store : DiskStore K D) (d : D) (b : ℕ) : Option (Page K) :=
  match store d b with
  | some (.node page, _) => some page
  | _ => none

/-- What one disk holds outside of the region `reserved`, the other one holds too. -/
def DiskStore.Grows (store : DiskStore K D) (reserved : ℕ) (d d' : D) : Prop :=
  ∀ b e, b ≠ reserved → store d b = some e → store d' b = some e

variable {store : DiskStore K D} {d d' d'' : D} {b reserved : ℕ} {e : DiskBlock K × ℕ}

theorem DiskStore.Grows.refl (d : D) : store.Grows reserved d d := fun _ _ _ => id

theorem DiskStore.Grows.trans (h : store.Grows reserved d d') (h' : store.Grows reserved d' d'') :
    store.Grows reserved d d'' := fun b e hb he => h' b e hb (h b e hb he)

theorem DiskStore.held_of_update (hb : store d b = none)
    (h : store d' = Function.update (store d) b (some e)) {c : ℕ} {f : DiskBlock K × ℕ}
    (hf : store d c = some f) : store d' c = some f := by
  have hcb : c ≠ b := by
    rintro rfl
    rw [hb] at hf
    cases hf
  rw [h, Function.update_of_ne hcb, hf]

theorem DiskStore.Grows.of_update (hb : store d b = none)
    (h : store d' = Function.update (store d) b (some e)) : store.Grows reserved d d' :=
  fun _ _ _ hf => held_of_update hb h hf

theorem DiskStore.pages_congr {c : ℕ} (h : store d' c = store d c) :
    store.pages d' c = store.pages d c := by
  unfold DiskStore.pages
  rw [h]

theorem DiskStore.pages_of_update (hb : store d b = none)
    (h : store d' = Function.update (store d) b (some e)) {c : ℕ} {page : Page K}
    (hp : store.pages d c = some page) : store.pages d' c = some page := by
  rw [← hp]
  apply pages_congr
  rw [h, Function.update_of_ne]
  rintro rfl
  rw [DiskStore.pages, hb] at hp
  cases hp

theorem Cache.Good.grows {c : Cache K} (h : c.Good (Cacheable (store.pages d)))
    (hg : ∀ b page, store.pages d b = some page → store.pages d' b = some page) :
    c.Good (Cacheable (store.pages d')) :=
  ⟨h.chains, fun i page hp => (h.block i page hp).imp_right (hg _ _)⟩

namespace Btree

variable {env : BtreeEnv K D} {s s' s'' : Btree K D} {level x y : ℕ} {N N' : List ℕ}
  {L : List (K × List UInt8)} {cs : List (ℕ × K)} {node : BtNode K} {page : Page K}

/-! ## What a part of the synchronisation changes -/

/-- Only the nodes in `N` change, which keep their links, and the disk grows. -/
structure Synced (store : DiskStore K D) (reserved : ℕ) (N : List ℕ) (s s' : Btree K D) : Prop where
  heap : ∀ y ∉ N, s'.heap y = s.heap y
  alive : ∀ y, s'.heap y = none ↔ s.heap y = none
  childNodes : ∀ y, s'.childNodes y = s.childNodes y
  refs : s'.refs = s.refs
  super : s'.super = s.super
  root : s'.root = s.root
  superOffset : s'.superOffset = s.superOffset
  fresh : s'.fresh = s.fresh
  cacheSize : s'.cache.size = s.cache.size
  disk : store.Grows reserved s.disk s'.disk
  untouched : store s'.disk reserved = store s.disk reserved
  cache : s.cache.Good (Cacheable (store.pages s.disk)) →
    s'.cache.Good (Cacheable (store.pages s'.disk))
  tidy : Tidy s → Tidy s'

namespace Synced

theorem refl (s : Btree K D) : Synced store reserved N s s :=
  ⟨fun _ _ => rfl, fun _ => Iff.rfl, fun _ => rfl, rfl, rfl, rfl, rfl, rfl, rfl, .refl _, rfl, id,
    id⟩

theorem trans (h : Synced store reserved N s s') (h' : Synced store reserved N' s' s'') :
    Synced store reserved (N ++ N') s s'' where
  heap y hy := by
    rw [List.mem_append, not_or] at hy
    rw [h'.heap y hy.2, h.heap y hy.1]
  alive y := (h'.alive y).trans (h.alive y)
  childNodes y := (h'.childNodes y).trans (h.childNodes y)
  refs := h'.refs.trans h.refs
  super := h'.super.trans h.super
  root := h'.root.trans h.root
  superOffset := h'.superOffset.trans h.superOffset
  fresh := h'.fresh.trans h.fresh
  cacheSize := h'.cacheSize.trans h.cacheSize
  disk := h.disk.trans h'.disk
  untouched := h'.untouched.trans h.untouched
  cache hc := h'.cache (h.cache hc)
  tidy ht := h'.tidy (h.tidy ht)

theorem mono (h : Synced store reserved N s s') (hN : N ⊆ N') : Synced store reserved N' s s' :=
  { h with heap := fun y hy => h.heap y fun hmem => hy (hN hmem) }

theorem config (h : Synced store reserved N s s') : s'.config = s.config := by
  unfold Btree.config
  rw [h.super, h.cacheSize]

theorem nodes (h : Synced store reserved N s s') (level x : ℕ) :
    s'.nodes level x = s.nodes level x := nodes_congr h.childNodes

end Synced

def Evicted (s : Btree K D) (y : ℕ) : Prop := ∃ node, s.heap y = some node ∧ node.data = none

@[simp] theorem addRef_nodes (s : Btree K D) (x : ℕ) (n : ℤ) (level y : ℕ) :
    (s.addRef x n).nodes level y = s.nodes level y := nodes_congr fun _ => rfl

theorem childNodes_setNode {node' : BtNode K} (hx : s.heap x = some node)
    (hp : node'.pointers = node.pointers) (y : ℕ) :
    (s.setNode x node').childNodes y = s.childNodes y := by
  by_cases hy : y = x
  · subst hy
    simp only [childNodes, setNode_heap_self, hx, Option.bind_some, hp]
  · simp only [childNodes, setNode_heap_ne s hy]

theorem Synced.setNode {node' : BtNode K} {page' : Page K} (hx : s.heap x = some node)
    (hdata : node.data = some page) (hdata' : node'.data = some page')
    (hp : node'.pointers = node.pointers) (hlen : page'.entries.length = page.entries.length) :
    Synced store reserved [x] s (s.setNode x node') := by
  refine ⟨fun y hy => setNode_heap_ne s (by simpa using hy) node', fun y => ?_,
    childNodes_setNode hx hp, rfl, rfl, rfl, rfl, rfl, rfl, .refl _, rfl, id, fun ht y q hq => ?_⟩
  · by_cases hy : y = x
    · rw [hy, setNode_heap_self, hx]
      simp
    · rw [setNode_heap_ne s hy]
  · rw [childNodes_setNode hx hp]
    by_cases hy : y = x
    · subst hy
      obtain rfl : page' = q := by
        simpa [Btree.page, setNode_heap_self, hdata'] using hq
      rw [hlen]
      exact ht y page (by simp [Btree.page, hx, hdata])
    · refine ht y q ?_
      simpa only [Btree.page, setNode_heap_ne s hy] using hq

/-! ## Releasing and writing a node -/

variable (env)

theorem btnodeRelease_evicts (hx : s.heap x = some node) (hdata : node.data = some page)
    (hclean : node.dirty = false) (hrefs : s.refs x = 1) (hsize : s.cache.size ≠ 0)
    {P : ℕ → Page K → Prop} (hcache : s.cache.Good P) (hp : P node.blocknr page) :
    ∃ cache m, s.btnodeRelease env x =
      some ({ s.addRef x (-1) with cache := cache, mallocs := m }.setNode x
        { node with data := none }) ∧ cache.Good P ∧ cache.size = s.cache.size := by
  have hcache' : (s.addRef x (-1)).cache.Good P := hcache
  obtain ⟨cache, m, hadd, hgood, hsize'⟩ := btcacheAdd_good env hcache' hp
  refine ⟨cache, m, ?_, hgood, hsize'⟩
  have hpos : ¬ s.refs x ≤ 0 := by omega
  have hzero : ¬ (s.addRef x (-1)).refs x > 0 := by
    rw [addRef_self]
    omega
  have hkeep : (!node.dirty && decide ((s.addRef x (-1)).cache.size ≠ 0)) = true := by
    rw [hclean]
    exact decide_eq_true hsize
  simp only [btnodeRelease, hx, Option.bind_eq_bind, Option.bind_some, if_neg hpos, if_neg hzero,
    hdata, Option.pure_def]
  rw [if_pos hkeep, hadd, Option.bind_some]

def sealed (size : ℕ) (page : Page K) : Page K :=
  { page with crc := env.crcBlock page.level page.body size }

theorem writeNode_spec (hf : Faithful env store reserved) (hx : s.heap x = some node)
    (hdata : node.data = some page) (hb : node.blocknr = 0) :
    ∃ b d' node', s.writeNode env x =
      some (⟨b, env.crcPointer (sealed env s.super.blockSize page) s.super.blockSize,
        s.super.blockSize⟩, { s with disk := d' }.setNode x node') ∧
      node'.data = some (sealed env s.super.blockSize page) ∧
      node'.pointers = node.pointers ∧ node'.dirty = false ∧ node'.blocknr = b ∧ b ≠ 0 ∧
      b ≠ reserved ∧ store s.disk b = none ∧ store d' = Function.update (store s.disk) b
        (some (.node (sealed env s.super.blockSize page), s.super.blockSize)) := by
  let page' := sealed env s.super.blockSize page
  obtain ⟨b, d', hwrite, hb0, hbr, hnew, hstore⟩ :=
    hf.append s.disk node.size (.node page') s.super.blockSize
  refine ⟨b, d', { node with
    data := some page', onDisk := true, dirty := false, blocknr := b, size := s.super.blockSize },
    ?_, rfl, rfl, rfl, rfl, hb0, hbr, hnew, hstore⟩
  simp only [page', sealed] at hwrite
  simp only [writeNode, hx, hdata, hb, hwrite, Option.bind_eq_bind, Option.bind_some,
    Option.pure_def]
  rfl

theorem writeNode_readable (hf : Faithful env store reserved) (hx : s.heap x = some node)
    (hdata : node.data = some page) (hb : node.blocknr = 0) :
    ∃ pointer s', s.writeNode env x = some (pointer, s') ∧ Synced store reserved [x] s s' ∧
      (∃ node', s'.heap x = some node' ∧ node'.data = some (sealed env s.super.blockSize page) ∧
        node'.dirty = false ∧ node'.blocknr = pointer.blocknr) ∧
      ∀ d, store.Grows reserved s'.disk d → Readable env (store.pages d) d pointer
        (sealed env s.super.blockSize page) := by
  obtain ⟨b, d', node', hwrite, hdata', hpointers, hclean, hblocknr, hb0, hbr, hnew, hstore⟩ :=
    writeNode_spec env hf hx hdata hb
  let s₁ : Btree K D := { s with disk := d' }
  have hres : store d' reserved = store s.disk reserved := by
    rw [hstore, Function.update_of_ne hbr.symm]
  have hdisk : Synced store reserved [] s s₁ :=
    ⟨fun _ _ => rfl, fun _ => Iff.rfl, fun _ => rfl, rfl, rfl, rfl, rfl, rfl, rfl,
      .of_update hnew hstore, hres,
      fun hc => hc.grows fun _ _ => DiskStore.pages_of_update hnew hstore, id⟩
  have hnode : Synced store reserved [x] s₁ (s₁.setNode x node') :=
    .setNode hx hdata hdata' hpointers rfl
  refine ⟨_, _, hwrite, hdisk.trans hnode, ⟨node', setNode_heap_self _ _ _, hdata', hclean,
    hblocknr⟩, fun d hd => ?_⟩
  have hheld : store d b = some (.node (sealed env s.super.blockSize page), s.super.blockSize) :=
    hd b _ hbr (by
      change store d' b = _
      rw [hstore, Function.update_self])
  refine ⟨hb0, ?_, hf.read _ _ _ _ hheld, rfl, rfl⟩
  change store.pages d b = _
  simp only [DiskStore.pages, hheld]

/-! ## Writing a subtree -/

def Unsaved (s : Btree K D) (y : ℕ) : Prop :=
  ∃ node, s.heap y = some node ∧ node.dirty = true ∧ node.blocknr = 0

theorem Unsaved.frame (h : Unsaved s y) (hy : s'.heap y = s.heap y) : Unsaved s' y := by
  rwa [Unsaved, hy]

section Order

variable [LinearOrder K]

/-- A subtree that was never written, whose node `x` is held by the caller. -/
structure Pending (store : DiskStore K D) (s : Btree K D) (level x : ℕ)
    (L : List (K × List UInt8)) : Prop where
  subtree : Subtree s level x L
  inhabited : L ≠ []
  rising : Rising Prod.fst L
  tidy : Tidy s
  unsaved : ∀ y ∈ s.nodes level x, Unsaved s y
  held : s.refs x = 1
  idle : ∀ y ∈ s.nodes level x, y ≠ x → s.refs y = 0
  caching : s.cache.size ≠ 0
  cache : s.cache.Good (Cacheable (store.pages s.disk))

/-- The blocks under `x` are the tree `t` on disk, with the same items, and all of them but that of
`x` have left the nodes. -/
structure Written (env : BtreeEnv K D) (store : DiskStore K D) (reserved : ℕ) (s s' : Btree K D)
    (level x : ℕ) (L : List (K × List UInt8)) (pointer : NodePointer) (t : PageTree K) : Prop
    extends Synced store reserved (s.nodes level x) s s' where
  node : ∃ node, s'.heap x = some node ∧ node.data = some t.page ∧ node.dirty = false ∧
    node.blocknr = pointer.blocknr
  evicted : ∀ y ∈ s.nodes level x, y ≠ x → Evicted s' y
  onDisk : ∀ d, store.Grows reserved s'.disk d → OnDisk env (store.pages d) d pointer t
  formed : t.Formed s.super.fanout level
  holds : t.Holds level L

variable {pointer : NodePointer} {t : PageTree K} {c : ℕ}

omit [LinearOrder K] in
/-- The child of a twig is released once it is written. -/
theorem Written.release (h : Written env store reserved (s.addRef c 1) s' level c L pointer t)
    (hself : c ∈ s.nodes level c) (hcaching : s.cache.size ≠ 0)
    (hcache : s.cache.Good (Cacheable (store.pages s.disk))) (hzero : s.refs c = 0) :
    ∃ s₁, s'.btnodeRelease env c = some s₁ ∧ Synced store reserved (s.nodes level c) s s₁ ∧
      (∀ y ∈ s.nodes level c, Evicted s₁ y) ∧ s₁.disk = s'.disk := by
  obtain ⟨node, hx, hdata, hclean, hblocknr⟩ := h.node
  have hrefs : s'.refs c = 1 := by
    rw [h.refs, addRef_self, hzero]
    rfl
  have hstored : Cacheable (store.pages s'.disk) node.blocknr t.page := by
    have hdisk := h.onDisk s'.disk (.refl _)
    cases hdisk with
    | intro hread _ => exact Or.inr (hblocknr ▸ hread.store)
  have hsize : s'.cache.size ≠ 0 := h.cacheSize ▸ hcaching
  obtain ⟨cache, m, hrun, hgood, hsame⟩ :=
    btnodeRelease_evicts env hx hdata hclean hrefs hsize (h.cache hcache) hstored
  have hheap := h.heap
  have hevicted := h.evicted
  rw [addRef_nodes] at hheap hevicted
  let s₁ : Btree K D := { s'.addRef c (-1) with cache := cache, mallocs := m }
  let node' : BtNode K := { node with data := none }
  have hnode : (s₁.setNode c node').heap c = some node' := setNode_heap_self _ _ _
  have hother : ∀ y, y ≠ c → (s₁.setNode c node').heap y = s'.heap y := fun y hy =>
    setNode_heap_ne s₁ hy node'
  have hlinks : ∀ y, (s₁.setNode c node').childNodes y = s'.childNodes y :=
    childNodes_setNode (s := s₁) hx rfl
  refine ⟨s₁.setNode c node', hrun, ⟨fun y hy => ?_, fun y => ?_, fun y => ?_, ?_, h.super, h.root,
    h.superOffset, h.fresh, hsame.trans h.cacheSize, h.disk, h.untouched, fun _ => hgood,
    fun ht => ?_⟩, fun y hy => ?_, rfl⟩
  · by_cases hyc : y = c
    · exact absurd hself (hyc ▸ hy)
    · rw [hother y hyc, hheap y hy]
      rfl
  · by_cases hyc : y = c
    · have hsame : s'.heap c = none ↔ s.heap c = none := h.alive c
      rw [hyc, hnode, ← hsame, hx]
      simp
    · rw [hother y hyc]
      exact h.alive y
  · exact (hlinks y).trans (h.childNodes y)
  · change s'.refs + Pi.single c (-1) = s.refs
    rw [h.refs]
    exact congrArg Btree.refs (addRef_cancel s c)
  · intro y q hq
    rw [hlinks]
    refine h.tidy ht y q ?_
    by_cases hyc : y = c
    · subst hyc
      simp [Btree.page, hnode, node'] at hq
    · simpa only [Btree.page, hother y hyc] using hq
  · by_cases hyc : y = c
    · exact ⟨node', hyc ▸ hnode, rfl⟩
    · obtain ⟨n, hn, hd⟩ := hevicted y hy hyc
      exact ⟨n, (hother y hyc).trans hn, hd⟩

/-- The children of `x` that are still to be written. -/
structure Remaining (store : DiskStore K D) (s : Btree K D) (level x : ℕ) (cs : List (ℕ × K))
    (L : List (K × List UInt8)) : Prop where
  children : Grouped (Subtree s level) Prod.fst L cs
  rising : Rising Prod.fst L
  tidy : Tidy s
  unsaved : ∀ c ∈ cs, ∀ y ∈ s.nodes level c.1, Unsaved s y
  idle : ∀ c ∈ cs, ∀ y ∈ s.nodes level c.1, s.refs y = 0
  apart : ∀ c ∈ cs, x ∉ s.nodes level c.1
  caching : s.cache.size ≠ 0
  cache : s.cache.Good (Cacheable (store.pages s.disk))

variable {z : ℕ × K} {A B : List (K × List UInt8)}

theorem Remaining.pending (h : Remaining store s level x (z :: cs) L)
    (hz : Subtree s level z.1 A) (hne : A ≠ []) (hA : Rising Prod.fst A) :
    Pending store (s.addRef z.1 1) level z.1 A where
  subtree := hz.frame h.tidy rfl fun _ _ => rfl
  inhabited := hne
  rising := hA
  tidy := h.tidy
  unsaved y hy := by
    rw [addRef_nodes] at hy
    exact h.unsaved z List.mem_cons_self y hy
  held := by
    rw [addRef_self, h.idle z List.mem_cons_self z.1 (mem_nodes_self hz)]
    rfl
  idle y hy hne := by
    rw [addRef_nodes] at hy
    have hidle := h.idle z List.mem_cons_self y hy
    simpa [addRef, Pi.single_eq_of_ne hne] using hidle
  caching := h.caching
  cache := h.cache

theorem Remaining.tail (h : Remaining store s level x (z :: cs) L) (hB : Rising Prod.fst B)
    (hcs : Grouped (Subtree s level) Prod.fst B cs)
    (hs : Synced store reserved (x :: s.nodes level z.1) s s') :
    Remaining store s' level x cs B := by
  have hdisjoint := (List.pairwise_cons.mp (Subtree.children_disjoint h.children h.tidy h.rising)).1
  have hheap : ∀ c ∈ cs, ∀ y ∈ s.nodes level c.1, s'.heap y = s.heap y := fun c hc y hy => by
    refine hs.heap y fun hmem => ?_
    rcases List.mem_cons.mp hmem with rfl | hmem
    · exact h.apart c (List.mem_cons_of_mem z hc) hy
    · exact hdisjoint c hc hmem hy
  refine ⟨hcs.mono fun c hc I hI => hI.frame h.tidy hs.config (hheap c hc), hB, hs.tidy h.tidy,
    fun c hc y hy => ?_, fun c hc y hy => ?_, fun c hc hmem => ?_, hs.cacheSize ▸ h.caching,
    hs.cache h.cache⟩
  · rw [hs.nodes] at hy
    exact (h.unsaved c (List.mem_cons_of_mem z hc) y hy).frame (hheap c hc y hy)
  · rw [hs.nodes] at hy
    rw [hs.refs]
    exact h.idle c (List.mem_cons_of_mem z hc) y hy
  · rw [hs.nodes] at hmem
    exact h.apart c (List.mem_cons_of_mem z hc) hmem

/-! ## The children of a twig -/

/-- A dirty twig with the entries `es`. -/
def filled (node : BtNode K) (crc level free : ℕ) (es : List (K × NodePointer)) : BtNode K :=
  { node with data := some ⟨crc, level, .twig ⟨es, free⟩⟩, dirty := true }

variable {crc free : ℕ} {e1 e2 e2' : List (K × NodePointer)} {ts : List (PageTree K)}
  {ps : List (Option ℕ)} {q : K × NodePointer}

omit [LinearOrder K] in
theorem btnodeFetchTwig_filled (hx : s.heap x = some (filled node crc level free (e1 ++ q :: e2)))
    (hps : node.pointers = some ps) (hz : ps[e1.length]? = some (some c)) (hc : ResidentAt s c) :
    s.btnodeFetchTwig env x e1.length = some (some c, s.addRef c 1) := by
  have he : (e1 ++ q :: e2)[e1.length]? = some q := by simp
  have hc' : ResidentAt (s.addRef c 1) c := hc.frame rfl rfl
  simp only [btnodeFetchTwig, hx, filled, Page.twig?, hps, he, hz, Option.bind_eq_bind,
    Option.bind_some, btnodeRead_resident env hc', if_true, Option.pure_def]

omit [LinearOrder K] in
theorem twigInlineReplace_filled
    (hx : s.heap x = some (filled node crc level free (e1 ++ q :: e2))) (value : NodePointer) :
    s.twigInlineReplace x e1.length value =
      some (s.setNode x (filled node crc level free (e1 ++ [(q.1, value)] ++ e2))) := by
  have he : (e1 ++ q :: e2)[e1.length]? = some q := by simp
  have hset : (e1 ++ q :: e2).set e1.length (q.1, value) = e1 ++ [(q.1, value)] ++ e2 := by simp
  simp only [twigInlineReplace, hx, filled, Page.twig?, he, hset, putTwig, Option.bind_eq_bind,
    Option.bind_some, Option.pure_def]

/-- The entries `es` point to the trees `ts` on disk, which are those under the children `cs`. -/
structure ChildrenWritten (env : BtreeEnv K D) (store : DiskStore K D) (reserved : ℕ)
    (s s' : Btree K D) (level x : ℕ) (cs : List (ℕ × K)) (L : List (K × List UInt8))
    (es : List (K × NodePointer)) (ts : List (PageTree K)) : Prop
    extends Synced store reserved (x :: cs.flatMap fun c => s.nodes level c.1) s s' where
  keys : es.map Prod.fst = cs.map Prod.snd
  evicted : ∀ c ∈ cs, ∀ y ∈ s.nodes level c.1, Evicted s' y
  onDisk : ∀ d, store.Grows reserved s'.disk d →
    List.Forall₂ (fun e t => OnDisk env (store.pages d) d e.2 t) es ts
  formed : ∀ t ∈ ts, t.Formed s.super.fanout level
  holds : Grouped (PageTree.Holds level) Prod.fst L (ts.zip (cs.map Prod.snd))

theorem syncChildren_spec
    {sync : Btree K D → ℕ → NodePointer → Option (ℤ × NodePointer × Btree K D)}
    (hsync : ∀ (s : Btree K D) c I pointer, Pending store s level c I →
      ∃ pointer' s' t, sync s c pointer = some (0, pointer', s') ∧
        Written env store reserved s s' level c I pointer' t)
    (h : Remaining store s level x cs L) (hps : node.pointers = some ps)
    (hx : s.heap x = some (filled node crc y free (e1 ++ e2)))
    (hkeys : e2.map Prod.fst = cs.map Prod.snd)
    (hlinked : ∀ j z, cs[j]? = some z → ps[e1.length + j]? = some (some z.1))
    (pointer : NodePointer) :
    ∃ pointer' s' e2' ts, syncChildren env sync x (List.range' e1.length cs.length) pointer s =
        some (0, pointer', s') ∧ s'.heap x = some (filled node crc y free (e1 ++ e2')) ∧
      ChildrenWritten env store reserved s s' level x cs L e2' ts := by
  induction cs generalizing s e1 e2 L pointer with
  | nil =>
      obtain rfl := List.map_eq_nil_iff.mp hkeys
      obtain rfl := h.children.eq_nil
      exact ⟨pointer, s, [], [], rfl, hx, .refl s, rfl, by simp, fun _ _ => .nil, by simp, .nil⟩
  | cons z cs ih =>
      obtain ⟨q, e2, rfl, hq, hkeys⟩ := List.map_eq_cons_iff.mp hkeys
      obtain ⟨A, I, B, w, rfl, hI, hw, hwz, hA, hB⟩ := h.children.split_upper (U := []) rfl
      obtain rfl := hA.eq_nil
      rw [List.nil_append] at h ⊢
      obtain ⟨hIs, hBs, -⟩ := List.pairwise_append.mp h.rising
      have hz : ps[e1.length]? = some (some z.1) := hlinked 0 z rfl
      have hfetch := btnodeFetchTwig_filled env hx hps hz hI.resident
      have hne : I ≠ [] := by
        rintro rfl
        cases hw
      obtain ⟨p, s₁, t, hrun, hwritten⟩ :=
        hsync (s.addRef z.1 1) z.1 I pointer (h.pending hI hne hIs)
      have hmem := mem_nodes_self hI
      obtain ⟨s₂, hrelease, hsynced, hevicted, hdisk⟩ :=
        hwritten.release env hmem h.caching h.cache (h.idle z List.mem_cons_self z.1 hmem)
      have hx₂ : s₂.heap x = some (filled node crc y free (e1 ++ q :: e2)) :=
        (hsynced.heap x (h.apart z List.mem_cons_self)).trans hx
      have hreplace := twigInlineReplace_filled hx₂ p
      let node₃ : BtNode K := filled node crc y free (e1 ++ [(q.1, p)] ++ e2)
      have hset : Synced store reserved [x] s₂ (s₂.setNode x node₃) :=
        .setNode hx₂ rfl rfl rfl (by simp [Page.entries])
      have hstep : Synced store reserved (x :: s.nodes level z.1) s (s₂.setNode x node₃) :=
        (hsynced.trans hset).mono (by simp)
      have hrest := h.tail hBs hB hstep
      have hx₃ : (s₂.setNode x node₃).heap x =
          some (filled node crc y free (e1 ++ [(q.1, p)] ++ e2)) := setNode_heap_self _ _ _
      obtain ⟨p', s', e2', ts, hloop, hx', hall⟩ := ih hrest hx₃ hkeys (fun j u hu => by
          have := hlinked (j + 1) u hu
          rwa [List.length_append, List.length_singleton, Nat.add_assoc, Nat.add_comm 1 j]) p
      have hdisjoint :=
        (List.pairwise_cons.mp (Subtree.children_disjoint h.children h.tidy h.rising)).1
      refine ⟨p', s', (q.1, p) :: e2', t :: ts, ?_, ?_, ?_⟩
      · rw [List.length_append, List.length_singleton] at hloop
        rw [List.length_cons, List.range'_succ, syncChildren]
        simp only [hfetch, hrun, hrelease, hreplace, Option.bind_eq_bind, Option.bind_some,
          lt_irrefl, gt_iff_lt, if_false]
        exact hloop
      · rwa [List.append_assoc] at hx'
      · have hrest' := hall.toSynced
        simp only [hstep.nodes] at hrest'
        refine ⟨(hstep.trans hrest').mono (by simp), ?_, fun c hc y hy => ?_, fun d hd => ?_,
          fun u hu => ?_, ?_⟩
        · rw [List.map_cons, List.map_cons, hall.keys, hq]
        · rcases List.mem_cons.mp hc with rfl | hc
          · obtain ⟨n, hn, hnone⟩ := hevicted y hy
            have hyx : y ≠ x := by
              rintro rfl
              exact h.apart c List.mem_cons_self hy
            refine ⟨n, ?_, hnone⟩
            rw [hrest'.heap y, setNode_heap_ne s₂ hyx, hn]
            rw [List.mem_cons, List.mem_flatMap]
            rintro (hyx' | ⟨b, hb, hyb⟩)
            · exact hyx hyx'
            · exact hdisjoint b hb hy hyb
          · refine hall.evicted c hc y ?_
            rwa [hstep.nodes]
        · refine .cons (hwritten.onDisk d fun b e hb he => hd b e hb (hrest'.disk b e hb ?_))
            (hall.onDisk d hd)
          change store s₂.disk b = some e
          rwa [hdisk]
        · rcases List.mem_cons.mp hu with rfl | hu
          · exact hwritten.formed
          · have hformed := hall.formed u hu
            rwa [hstep.super] at hformed
        · have hcons := Grouped.cons hwritten.holds hw hall.holds
          rwa [hwz] at hcons

/-! ## A subtree -/

theorem syncNode_leaf (hf : Faithful env store reserved) (h : Pending store s 1 x L) (fuel : ℕ)
    (pointer : NodePointer) :
    ∃ pointer' s' t, syncNode env (fuel + 1) s x pointer = some (0, pointer', s') ∧
      Written env store reserved s s' 1 x L pointer' t := by
  obtain ⟨node, hx, ⟨l⟩⟩ := h.subtree
  obtain ⟨node', hx', hdirty, hblocknr⟩ := h.unsaved x (List.mem_singleton_self x)
  obtain rfl := Option.some.inj (hx.symm.trans hx')
  obtain ⟨p, s', hwrite, hsynced, hnode, hread⟩ := writeNode_readable env hf hx l.data hblocknr
  refine ⟨p, s', .node (sealed env s.super.blockSize ⟨l.crc, 1, .leaf l.leaf⟩) [], ?_, hsynced,
    hnode, fun y hy hne => absurd (List.mem_singleton.mp hy) hne, fun d hd => ?_,
    ⟨rfl, rfl, l.leaf, rfl⟩, l.leaf, rfl, l.packed.items⟩
  · simp only [syncNode, h.held, hx, l.data, hdirty, hwrite, Option.bind_eq_bind, Option.bind_some,
      ne_eq, not_true_eq_false, if_false, lt_irrefl, gt_iff_lt, Bool.not_true, Bool.false_eq_true,
      Option.pure_def]
  · exact .intro (hread d hd) fun i c e hc _ => absurd hc (by simp [PageTree.children])

omit [LinearOrder K] in
theorem syncNode_twig {crc l : ℕ} {twig : TwigPage K} {fuel : ℕ} {pointer p p' : NodePointer}
    {node' : BtNode K} (hr : s.refs x = 1) (hx : s.heap x = some node)
    (hdata : node.data = some ⟨crc, l + 2, .twig twig⟩) (hdirty : node.dirty = true)
    (hloop : syncChildren env (syncNode env fuel) x (List.range twig.entries.length) pointer s =
      some (0, p, s')) (hx' : s'.heap x = some node') (hdirty' : node'.dirty = true)
    (hwrite : s'.writeNode env x = some (p', s'')) :
    syncNode env (fuel + 1) s x pointer = some (0, p', s'') := by
  simp only [syncNode, hr, hx, hdata, hdirty, Page.items, hloop, hx', hdirty', hwrite,
    Option.bind_eq_bind, Option.bind_some, ne_eq, not_true_eq_false, if_false, if_true,
    lt_irrefl, gt_iff_lt, Bool.not_true, Bool.and_false, Bool.false_eq_true, Option.pure_def,
    Nat.one_lt_succ_succ]

omit [LinearOrder K] in
theorem ChildrenWritten.written {page : Page K} {twig : TwigPage K} {s₁ : Btree K D}
    (h : ChildrenWritten env store reserved s s₁ (level + 1) x cs L twig.entries ts)
    (hnodes : s.nodes (level + 2) x = x :: cs.flatMap fun c => s.nodes (level + 1) c.1)
    (hcs : cs ≠ []) (hle : cs.length ≤ s.super.fanout) (hs : Synced store reserved [x] s₁ s')
    (hnode : ∃ node, s'.heap x = some node ∧ node.data = some page ∧ node.dirty = false ∧
      node.blocknr = pointer.blocknr)
    (hread : ∀ d, store.Grows reserved s'.disk d → Readable env (store.pages d) d pointer page)
    (hlevel : page.level = level + 2) (hbody : page.body = .twig twig) :
    Written env store reserved s s' (level + 2) x L pointer (.node page ts) := by
  have hkeys : twig.entries.length = cs.length := by simpa using congrArg List.length h.keys
  have hts : twig.entries.length = ts.length := (h.onDisk _ hs.disk).length_eq
  have hsynced := h.toSynced.trans hs
  refine ⟨hsynced.mono (by simp [hnodes]), hnode, fun y hy hne => ?_, fun d hd => ?_, ?_, ?_⟩
  · rw [hnodes, List.mem_cons, or_iff_right hne] at hy
    obtain ⟨c, hc, hy⟩ := List.mem_flatMap.mp hy
    obtain ⟨n, hn, hnone⟩ := h.evicted c hc y hy
    exact ⟨n, (hs.heap y (by simpa using hne)).trans hn, hnone⟩
  · have hall := h.onDisk d (hs.disk.trans hd)
    refine .intro (hread d hd) fun i c e hc he => ?_
    have hentries : (PageTree.node page ts).page.entries = twig.entries := by
      simp only [PageTree.page, Page.entries, hbody]
    rw [hentries] at he
    obtain ⟨hi, rfl⟩ := List.getElem?_eq_some_iff.mp he
    obtain ⟨hi', rfl⟩ := List.getElem?_eq_some_iff.mp hc
    exact hall.get hi hi'
  · refine ⟨hlevel, twig, hbody, hts, ?_, ?_, h.formed⟩
    · exact List.ne_nil_of_length_pos (by
        have := List.length_pos_iff.mpr hcs
        change 0 < ts.length
        omega)
    · change ts.length ≤ s.super.fanout
      omega
  · refine ⟨twig, hbody, ?_⟩
    rw [h.keys]
    exact h.holds

/-- A subtree is written as a tree of blocks with the same items. -/
theorem syncNode_spec (hf : Faithful env store reserved) (h : Pending store s level x L)
    {fuel : ℕ} (hfuel : level ≤ fuel) (pointer : NodePointer) :
    ∃ pointer' s' t, syncNode env fuel s x pointer = some (0, pointer', s') ∧
      Written env store reserved s s' level x L pointer' t := by
  induction level using Nat.strong_induction_on generalizing s x L fuel pointer with
  | _ level ih =>
      match level, h.subtree with
      | 1, _ =>
          obtain ⟨n, rfl⟩ : ∃ n, fuel = n + 1 := ⟨fuel - 1, by omega⟩
          exact syncNode_leaf env hf h n pointer
      | level + 2, ⟨cs, hc, hg⟩ =>
          obtain ⟨n, rfl⟩ : ∃ n, fuel = n + 1 := ⟨fuel - 1, by omega⟩
          have hnodes := h.tidy.nodes_twig hc
          have hnodup := h.subtree.nodup h.tidy h.rising
          rw [hnodes, List.nodup_cons] at hnodup
          have hunder : ∀ c ∈ cs, ∀ y ∈ s.nodes (level + 1) c.1,
              y ∈ s.nodes (level + 2) x ∧ y ≠ x := fun c hmem y hy => by
            have hflat : y ∈ cs.flatMap fun c => s.nodes (level + 1) c.1 :=
              List.mem_flatMap.mpr ⟨c, hmem, hy⟩
            refine ⟨hnodes ▸ List.mem_cons_of_mem x hflat, ?_⟩
            rintro rfl
            exact hnodup.1 hflat
          have hrest : Remaining store s (level + 1) x cs L :=
            ⟨hg, h.rising, h.tidy, fun c hmem y hy => h.unsaved y (hunder c hmem y hy).1,
              fun c hmem y hy => h.idle y (hunder c hmem y hy).1 (hunder c hmem y hy).2,
              fun c hmem hx => (hunder c hmem x hx).2 rfl, h.caching, h.cache⟩
          obtain ⟨node, hx, ⟨t⟩⟩ := hc
          obtain ⟨node', hx', hdirty, hblocknr⟩ := h.unsaved x (mem_nodes_self h.subtree)
          obtain rfl := Option.some.inj (hx.symm.trans hx')
          have hlen : t.twig.entries.length = cs.length := by
            simpa using congrArg List.length t.keys
          have hfilled : s.heap x =
              some (filled node t.crc (level + 2) t.twig.free ([] ++ t.twig.entries)) := by
            rw [hx, filled, List.nil_append, ← t.data, ← hdirty]
          have hlinked : ∀ j z, cs[j]? = some z → t.pointers[0 + j]? = some (some z.1) := by
            intro j z hz
            have hget : (t.pointers.take cs.length)[j]? = (cs.map fun z => some z.1)[j]? := by
              rw [t.linked]
            rwa [List.getElem?_take_of_lt (List.getElem?_eq_some_iff.mp hz).1, List.getElem?_map,
              hz, ← Nat.zero_add j] at hget
          obtain ⟨p, s₁, es, ts, hloop, hx₁, hchildren⟩ := syncChildren_spec env
            (fun s c I p hp => ih (level + 1) (by omega) hp (by omega : level + 1 ≤ n) p)
            hrest t.array hfilled t.keys hlinked pointer
          obtain ⟨p', s', hwrite, hsynced, hnode, hread⟩ :=
            writeNode_readable env hf hx₁ rfl hblocknr
          let page : Page K := ⟨t.crc, level + 2, .twig ⟨[] ++ es, t.twig.free⟩⟩
          refine ⟨p', s', .node (sealed env s₁.super.blockSize page) ts, ?_, ?_⟩
          · have hrange : List.range t.twig.entries.length = List.range' 0 cs.length := by
              rw [hlen, List.range_eq_range']
            rw [List.length_nil, ← hrange] at hloop
            exact syncNode_twig env h.held hx t.data hdirty hloop hx₁ rfl hwrite
          · have hcs : cs ≠ [] := by
              rintro rfl
              exact h.inhabited hg.eq_nil
            exact hchildren.written env hnodes hcs t.within hsynced hnode hread rfl rfl

end Order

end Btree

end Carthage
