import Carthage.BlockCache
import Carthage.BtreePages
import Carthage.BtreeTwig

/-!
# Trees in memory, in the cache and on disk

A tree of blocks whose nodes may be in memory with or without their blocks, or only on
disk. Fetching and releasing nodes moves blocks between the heap, the cache and the disk,
and keeps the tree.
-/

namespace Carthage

/-- The tree under each node in memory, and the block at each place of the disk. -/
structure View (K : Type) where
  under : ℕ → Option (PageTree K)
  store : ℕ → Option (Page K)

/-- More is known about the nodes in memory, and the disk is the same. -/
structure View.Extends {K : Type} (v v' : View K) : Prop where
  store : v'.store = v.store
  under : ∀ x t, v.under x = some t → v'.under x = some t

theorem View.Extends.refl {K : Type} (v : View K) : v.Extends v := ⟨rfl, fun _ _ h => h⟩

theorem View.Extends.trans {K : Type} {v v' v'' : View K} (h : v.Extends v') (h' : v'.Extends v'') :
    v.Extends v'' :=
  ⟨h'.store.trans h.store, fun x t hx => h'.under x t (h.under x t hx)⟩

/-- The view after a node for the tree `t` was allocated. -/
def View.insert {K : Type} (v : View K) (x : ℕ) (t : PageTree K) : View K :=
  { v with under := Function.update v.under x (some t) }

/-- Reading through the pointer gives the block, and passes both checks. -/
structure Readable {K D : Type} (env : BtreeEnv K D) (store : ℕ → Option (Page K)) (disk : D)
    (pointer : NodePointer) (page : Page K) : Prop where
  placed : pointer.blocknr ≠ 0
  store : store pointer.blocknr = some page
  read : env.read disk pointer.blocknr pointer.size = some (.node page)
  crc : pointer.crc = env.crcPointer page pointer.size
  blockCrc : page.crc = env.crcBlock page.level page.body pointer.size

def Cacheable {K : Type} (store : ℕ → Option (Page K)) (blocknr : ℕ) (page : Page K) : Prop :=
  blocknr = 0 ∨ store blocknr = some page

/-- The blocks of a tree can be read, from that of a pointer down to the leaves. -/
inductive OnDisk {K D : Type} (env : BtreeEnv K D) (store : ℕ → Option (Page K)) (disk : D) :
    NodePointer → PageTree K → Prop
  | intro {pointer : NodePointer} {t : PageTree K} : Readable env store disk pointer t.page →
      (∀ (i : ℕ) (c : PageTree K) (e : K × NodePointer), t.children[i]? = some c →
        t.page.entries[i]? = some e → OnDisk env store disk e.2 c) →
      OnDisk env store disk pointer t

theorem Cacheable.eq {K D : Type} {env : BtreeEnv K D} {store : ℕ → Option (Page K)} {disk : D}
    {pointer : NodePointer} {page page' : Page K} (h : Cacheable store pointer.blocknr page')
    (hr : Readable env store disk pointer page) : page' = page := by
  have hstore := h.resolve_left hr.placed
  rw [hr.store] at hstore
  exact (Option.some.inj hstore).symm

namespace Btree

variable {K D : Type} {env : BtreeEnv K D} {v v' : View K} {s s' s'' : Btree K D} {x y : ℕ}
  {t c : PageTree K} {pointer : NodePointer} {o : Option (Option ℕ)}

/-- Where the tree under a position of a twig is: on disk, or at a node in memory. -/
inductive ChildAt (env : BtreeEnv K D) (v : View K) (s : Btree K D) (pointer : NodePointer)
    (c : PageTree K) : Option (Option ℕ) → Prop
  | absent : OnDisk env v.store s.disk pointer c → ChildAt env v s pointer c (some none)
  | present {y : ℕ} : v.under y = some c →
      ResidentAt s y ∨ Readable env v.store s.disk pointer c.page →
      ChildAt env v s pointer c (some (some y))

/-- A node over the tree `t`, with its block or without. -/
structure NodeOver (env : BtreeEnv K D) (v : View K) (s : Btree K D) (node : BtNode K)
    (t : PageTree K) : Prop where
  data : ∀ page, node.data = some page → page = t.page
  clean : ¬ s.config.Keeps node → Cacheable v.store node.blocknr t.page
  pointers : t.children ≠ [] → ∃ pointers, node.pointers = some pointers ∧
    ∀ (i : ℕ) (c : PageTree K) (e : K × NodePointer), t.children[i]? = some c →
      t.page.entries[i]? = some e → ChildAt env v s e.2 c pointers[i]?

/-- Every node in memory is over its tree, and the cache holds blocks of the disk. -/
structure Memory (env : BtreeEnv K D) (v : View K) (s : Btree K D) : Prop where
  nodes : ∀ x t, v.under x = some t → ∃ node, s.heap x = some node ∧ NodeOver env v s node t
  cache : s.cache.Sound (Cacheable v.store)
  blank : s.Blank

/-- What fetching and releasing nodes leaves as it was. -/
structure Same (s s' : Btree K D) : Prop where
  super : s'.super = s.super
  cacheSize : s'.cache.size = s.cache.size
  disk : s'.disk = s.disk
  root : s'.root = s.root
  superOffset : s'.superOffset = s.superOffset
  resident : ∀ y, ResidentAt s y → s'.page y = s.page y ∧ ResidentAt s' y

theorem Same.refl (s : Btree K D) : Same s s := ⟨rfl, rfl, rfl, rfl, rfl, fun _ h => ⟨rfl, h⟩⟩

theorem Same.trans (h : Same s s') (h' : Same s' s'') : Same s s'' where
  super := h'.super.trans h.super
  cacheSize := h'.cacheSize.trans h.cacheSize
  disk := h'.disk.trans h.disk
  root := h'.root.trans h.root
  superOffset := h'.superOffset.trans h.superOffset
  resident y hy := by
    obtain ⟨hp, hr⟩ := h.resident y hy
    obtain ⟨hp', hr'⟩ := h'.resident y hr
    exact ⟨hp'.trans hp, hr'⟩

theorem Same.config (h : Same s s') : s'.config = s.config := by
  unfold Btree.config
  rw [h.super, h.cacheSize]

theorem ChildAt.mono (h : ChildAt env v s pointer c o) (hs : Same s s') (hv : v.Extends v') :
    ChildAt env v' s' pointer c o := by
  cases h with
  | absent h =>
      refine .absent ?_
      rwa [hv.store, hs.disk]
  | present hy h =>
      refine .present (hv.under _ _ hy) ?_
      rw [hv.store, hs.disk]
      exact h.imp (fun hr => (hs.resident _ hr).2) id

theorem NodeOver.mono {node : BtNode K} (h : NodeOver env v s node t) (hs : Same s s')
    (hv : v.Extends v') : NodeOver env v' s' node t where
  data := h.data
  clean hk := by
    rw [hv.store]
    exact h.clean (hs.config ▸ hk)
  pointers hne := by
    obtain ⟨pointers, hp, hall⟩ := h.pointers hne
    exact ⟨pointers, hp, fun i c e hc he => (hall i c e hc he).mono hs hv⟩

theorem Memory.change (h : Memory env v s) (hx : v.under x = some t) (hs : Same s s')
    {node : BtNode K} (hnode : s'.heap x = some node) (hover : NodeOver env v s' node t)
    (hheap : ∀ z, z ≠ x → s'.heap z = s.heap z) (hcache : s'.cache.Sound (Cacheable v.store))
    (hfresh : s'.fresh = s.fresh) (hrefs : ∀ z, s.fresh ≤ z → s'.refs z = 0) :
    Memory env v s' where
  nodes z u hz := by
    by_cases hzx : z = x
    · subst hzx
      obtain rfl := Option.some.inj (hx.symm.trans hz)
      exact ⟨node, hnode, hover⟩
    · obtain ⟨node', hnode', hover'⟩ := h.nodes z u hz
      exact ⟨node', (hheap z hzx).trans hnode', hover'.mono hs (.refl v)⟩
  cache := hcache
  blank z hz := by
    rw [hfresh] at hz
    have hzx : z ≠ x := by
      rintro rfl
      obtain ⟨node', hnode', -⟩ := h.nodes z t hx
      rw [(h.blank z hz).1] at hnode'
      cases hnode'
    exact ⟨(hheap z hzx).trans (h.blank z hz).1, hrefs z hz⟩

/-! ## Reading a node -/

variable (env)

/-- A node that has its block keeps it; another one gets it from the cache or the disk, unless
there is no memory for it. -/
theorem Memory.btnodeRead (h : Memory env v s) (hx : v.under x = some t)
    (hread : ResidentAt s x ∨ Readable env v.store s.disk pointer t.page) :
    ∃ ok s', s.btnodeRead env x pointer = some (ok, s') ∧
      (∀ z, z ≠ x → s'.heap z = s.heap z) ∧ ((∀ n, env.granted n = true) → ok = true) ∧
      (ok = true → Memory env v s' ∧ Same s s' ∧ s'.refs = s.refs ∧ s'.fresh = s.fresh ∧
        s'.page x = some t.page) := by
  obtain ⟨node, hnode, hover⟩ := h.nodes x t hx
  rw [Btree.btnodeRead]
  simp only [hnode, Option.bind_eq_bind, Option.bind_some]
  cases hdata : node.data with
  | some page =>
      obtain rfl := hover.data page hdata
      refine ⟨true, s, by simp, fun _ _ => rfl, fun _ => rfl,
        fun _ => ⟨h, .refl s, rfl, rfl, ?_⟩⟩
      simp [Btree.page, hnode, hdata]
  | none =>
      have hnot : ¬ ResidentAt s x := by
        rintro ⟨node', hnode', hsome, -⟩
        obtain rfl := Option.some.inj (hnode.symm.trans hnode')
        simp [hdata] at hsome
      have hr := hread.resolve_left hnot
      obtain ⟨block, cache, hlook, hsound, hsize, hblock⟩ := h.cache.lookup pointer.blocknr
      have hframe : ∀ node₁ : BtNode K, ∀ z, z ≠ x →
          Function.update s.heap x (some node₁) z = s.heap z := fun node₁ z hz =>
        Function.update_of_ne hz _ _
      -- Whatever node is put at `x`, everything else is as before.
      have hfinish : ∀ (s₁ : Btree K D) (node₁ : BtNode K), s₁.super = s.super →
          s₁.cache.size = s.cache.size → s₁.disk = s.disk → s₁.root = s.root →
          s₁.superOffset = s.superOffset → s₁.refs = s.refs → s₁.fresh = s.fresh →
          s₁.heap = Function.update s.heap x (some node₁) →
          s₁.cache.Sound (Cacheable v.store) → node₁.data = some t.page →
          (¬ s.config.Keeps node₁ → Cacheable v.store node₁.blocknr t.page) →
          node₁.pointers = node.pointers →
          Memory env v s₁ ∧ Same s s₁ ∧ s₁.refs = s.refs ∧ s₁.fresh = s.fresh ∧
            s₁.page x = some t.page := by
        intro s₁ node₁ h1 h2 h3 h4 h5 h6 h7 h8 h9 h10 h11 h12
        have hother : ∀ z, z ≠ x → s₁.heap z = s.heap z := fun z hz => by
          rw [h8, Function.update_of_ne hz]
        have hself : s₁.heap x = some node₁ := by rw [h8, Function.update_self]
        have hsame : Same s s₁ := by
          refine ⟨h1, h2, h3, h4, h5, fun y hy => ?_⟩
          have hyx : y ≠ x := fun hyx => hnot (hyx ▸ hy)
          have hconfig : s₁.config = s.config := by
            unfold Btree.config
            rw [h1, h2]
          refine ⟨?_, hy.frame hconfig (hother y hyx)⟩
          unfold Btree.page
          rw [hother y hyx]
        have hover₁ : NodeOver env v s₁ node₁ t := by
          refine ⟨fun page hp => ?_, fun hk => h11 (hsame.config ▸ hk), fun hne => ?_⟩
          · exact Option.some.inj (hp.symm.trans h10)
          · obtain ⟨pointers, hp, hall⟩ := hover.pointers hne
            exact ⟨pointers, h12.trans hp, fun i c e hc he =>
              (hall i c e hc he).mono hsame (.refl v)⟩
        refine ⟨h.change hx hsame hself hover₁ hother h9 h7 ?_, hsame, h6, h7, ?_⟩
        · intro z hz
          rw [h6]
          exact (h.blank z hz).2
        · simp [Btree.page, hself, h10]
      simp only [hlook, Option.bind_some, Option.isSome_none, Bool.false_eq_true, if_false]
      cases block with
      | some page =>
          obtain rfl := (hblock page rfl).eq hr
          exact ⟨true, _, rfl, hframe _, fun _ => rfl, fun _ => hfinish _ { node with data := some t.page }
            rfl hsize rfl rfl rfl rfl rfl rfl hsound rfl hover.clean rfl⟩
      | none =>
          have hcrc : ¬ pointer.crc ≠ env.crcPointer t.page pointer.size := not_not.mpr hr.crc
          have hcrc' : ¬ t.page.crc ≠ env.crcBlock t.page.level t.page.body pointer.size :=
            not_not.mpr hr.blockCrc
          by_cases hm : env.granted s.mallocs = true
          · simp only [malloc, setNode, hm, Bool.not_true, Bool.false_eq_true, if_false, hr.read,
              if_neg hcrc, if_neg hcrc', Option.isSome_none, Option.pure_def,
              Function.update_idem]
            exact ⟨true, _, rfl, hframe _, fun _ => rfl, fun _ => hfinish _
              ⟨node.pointers, some t.page, pointer.blocknr, pointer.size, false, false, false⟩
              rfl hsize rfl rfl rfl rfl rfl rfl hsound rfl (fun _ => Or.inr hr.store) rfl⟩
          · rw [Bool.not_eq_true] at hm
            simp only [malloc, setNode, hm, Bool.not_false, if_true, Option.isSome_none,
              Bool.false_eq_true, if_false, Option.pure_def]
            exact ⟨false, _, rfl, hframe _, fun hg => (by rw [hg] at hm; cases hm), fun ht => (by cases ht)⟩

/-! ## References -/

theorem Same.addRef (s : Btree K D) (x : ℕ) (n : ℤ) : Same s (s.addRef x n) :=
  ⟨rfl, rfl, rfl, rfl, rfl, fun _ h => ⟨rfl, h.frame rfl rfl⟩⟩

theorem Memory.addRef (h : Memory env v s) (hx : v.under x = some t) (n : ℤ) :
    Memory env v (s.addRef x n) where
  nodes z u hz := by
    obtain ⟨node, hnode, hover⟩ := h.nodes z u hz
    exact ⟨node, hnode, hover.mono (.addRef s x n) (.refl v)⟩
  cache := h.cache
  blank z hz := by
    refine ⟨(h.blank z hz).1, ?_⟩
    have hzx : z ≠ x := by
      rintro rfl
      obtain ⟨node, hnode, -⟩ := h.nodes z t hx
      rw [(h.blank z hz).1] at hnode
      cases hnode
    simp [Btree.addRef, (h.blank z hz).2, hzx]

theorem btcacheAdd_good {P : ℕ → Page K → Prop} (h : s.cache.Good P) {b : ℕ} {page : Page K}
    (hp : P b page) :
    ∃ cache m, s.btcacheAdd env b (some page) = some { s with cache := cache, mallocs := m } ∧
      cache.Good P ∧ cache.size = s.cache.size := by
  obtain ⟨cache, hadd, hgood, hsize⟩ := h.add hp
  rw [btcacheAdd]
  by_cases hgrow : s.cache.growing
  · by_cases hm : env.granted s.mallocs = true
    · refine ⟨cache, s.mallocs + 1, ?_, hgood, hsize⟩
      simp only [hgrow, if_true, malloc, hm, hadd, Option.bind_eq_bind, Option.bind_some,
        Option.pure_def]
    · refine ⟨s.cache, s.mallocs + 1, ?_, h, rfl⟩
      simp only [hgrow, if_true, malloc, hm, if_false, Bool.false_eq_true]
  · refine ⟨cache, s.mallocs, ?_, hgood, hsize⟩
    simp only [hgrow, if_false, hadd, Option.bind_eq_bind, Option.bind_some, Option.pure_def,
      Bool.false_eq_true]

/-- A release lowers the count; the block of a clean node moves to the cache. -/
theorem Memory.btnodeRelease (h : Memory env v s) (hx : v.under x = some t)
    (hpage : s.page x = some t.page) (hr : 0 < s.refs x) :
    ∃ s', s.btnodeRelease env x = some s' ∧ Memory env v s' ∧ Same s s' ∧
      s'.refs = s.refs + Pi.single x (-1) ∧ s'.fresh = s.fresh ∧
      ∀ z, z ≠ x → s'.heap z = s.heap z := by
  obtain ⟨node, hnode, hover⟩ := h.nodes x t hx
  have hdata : node.data = some t.page := by
    simpa [Btree.page, hnode] using hpage
  have hpos : ¬ s.refs x ≤ 0 := by omega
  have hkeep : ∃ s', some (s.addRef x (-1)) = some s' ∧ Memory env v s' ∧ Same s s' ∧
      s'.refs = s.refs + Pi.single x (-1) ∧ s'.fresh = s.fresh ∧
      ∀ z, z ≠ x → s'.heap z = s.heap z :=
    ⟨_, rfl, h.addRef env hx (-1), .addRef s x (-1), rfl, rfl, fun _ _ => rfl⟩
  rw [Btree.btnodeRelease]
  simp only [hnode, Option.bind_eq_bind, Option.bind_some, if_neg hpos, Option.pure_def]
  split_ifs with h1 h2
  · exact hkeep
  · have hclean : node.dirty = false ∧ s.cache.size ≠ 0 := by
      rw [Bool.and_eq_true, Bool.not_eq_true', decide_eq_true_eq] at h2
      exact h2
    have hnot : ¬ s.config.Keeps node := by
      rintro (hd | hc)
      · rw [hclean.1] at hd
        cases hd
      · exact hclean.2 hc
    have hgood := h.cache.resolve_left hclean.2
    have hgood' : (s.addRef x (-1)).cache.Good (Cacheable v.store) := hgood
    obtain ⟨cache, m, hadd, hgood'', hsize⟩ :=
      btcacheAdd_good env hgood' (hover.clean hnot)
    simp only [hdata, hadd, Option.bind_some]
    refine ⟨_, rfl, ?_⟩
    have hother : ∀ z, z ≠ x → (Function.update s.heap x (some { node with data := none })) z =
        s.heap z := fun z hz => Function.update_of_ne hz _ _
    have hnores : ¬ ResidentAt s x := by
      rintro ⟨node', hnode', -, hk⟩
      obtain rfl := Option.some.inj (hnode.symm.trans hnode')
      exact hnot hk
    have hsame : Same s (({ s.addRef x (-1) with cache := cache, mallocs := m } :
        Btree K D).setNode x { node with data := none }) := by
      refine ⟨rfl, hsize, rfl, rfl, rfl, fun y hy => ?_⟩
      have hyx : y ≠ x := fun hyx => hnores (hyx ▸ hy)
      refine ⟨?_, hy.frame ?_ (hother y hyx)⟩
      · unfold Btree.page
        rw [setNode_heap_ne _ hyx]
        rfl
      · unfold Btree.config
        change Config.mk _ cache.size = _
        rw [hsize]
        rfl
    refine ⟨h.change hx hsame (setNode_heap_self _ _ _) ?_ hother (Or.inr hgood'') rfl ?_,
      hsame, rfl, rfl, hother⟩
    · refine ⟨fun page hp => (by cases hp), fun _ => hover.clean hnot, fun hne => ?_⟩
      obtain ⟨pointers, hp, hall⟩ := hover.pointers hne
      exact ⟨pointers, hp, fun i c e hc he => (hall i c e hc he).mono hsame (.refl v)⟩
    · exact fun z hz => ((h.addRef env hx (-1)).blank z hz).2
  · exact hkeep

/-! ## Fetching a node -/

theorem Memory.extends_fresh (h : Memory env v s) (t : PageTree K) :
    v.Extends (v.insert s.fresh t) := by
  refine ⟨rfl, fun x u hx => ?_⟩
  have hxf : x ≠ s.fresh := by
    rintro rfl
    obtain ⟨node, hnode, -⟩ := h.nodes _ u hx
    rw [(h.blank _ le_rfl).1] at hnode
    cases hnode
  simp only [View.insert, Function.update_of_ne hxf]
  exact hx

/-- A new node for a block on disk, unless there is no memory for it. -/
theorem Memory.btnodeFetch (h : Memory env v s) {level : ℕ}
    (hdisk : OnDisk env v.store s.disk pointer t) (hfan : t.children.length ≤ s.super.fanout)
    (hlevel : t.children ≠ [] → level ≠ 1) :
    ∃ ok s', s.btnodeFetch env level pointer = some (if ok then some s.fresh else none, s') ∧
      (∀ z, z ≠ s.fresh → s'.heap z = s.heap z) ∧ ((∀ n, env.granted n = true) → ok = true) ∧
      (ok = true → Memory env (v.insert s.fresh t) s' ∧ Same s s' ∧
        s'.refs = s.refs + Pi.single s.fresh 1 ∧ s'.fresh = s.fresh + 1 ∧
        s'.page s.fresh = some t.page) := by
  have hext := h.extends_fresh env t
  by_cases hm : env.granted s.mallocs = true
  case neg =>
    rw [Bool.not_eq_true] at hm
    refine ⟨false, { s with mallocs := s.mallocs + 1 }, ?_, fun _ _ => rfl,
      fun hg => (by rw [hg] at hm; cases hm), fun ht => (by cases ht)⟩
    simp only [Btree.btnodeFetch, btnodeLevelAlloc, malloc, hm, Bool.false_eq_true, if_false]
  have hrefs : Function.update s.refs s.fresh 1 = s.refs + Pi.single s.fresh 1 := by
    funext z
    by_cases hz : z = s.fresh
    · subst hz
      simp [(h.blank _ le_rfl).2]
    · simp [hz]
  let node : BtNode K := ⟨if level = 1 then none else some (List.replicate s.super.fanout none),
    none, 0, 0, false, false, false⟩
  let s₁ : Btree K D := { s with
    mallocs := s.mallocs + 1, fresh := s.fresh + 1,
    heap := Function.update s.heap s.fresh (some node), refs := s.refs + Pi.single s.fresh 1 }
  have halloc : s.btnodeLevelAlloc env level = (some s.fresh, s₁) := by
    simp only [btnodeLevelAlloc, malloc, hm, if_true, hrefs, s₁, node]
  have hother : ∀ z, z ≠ s.fresh → s₁.heap z = s.heap z := fun z hz =>
    Function.update_of_ne hz _ _
  have hsame : Same s s₁ := by
    refine ⟨rfl, rfl, rfl, rfl, rfl, fun y hy => ?_⟩
    have hyf : y ≠ s.fresh := by
      rintro rfl
      obtain ⟨node', hnode', -⟩ := hy
      rw [(h.blank _ le_rfl).1] at hnode'
      cases hnode'
    refine ⟨?_, hy.frame rfl (hother y hyf)⟩
    unfold Btree.page
    rw [hother y hyf]
  cases hdisk with
  | intro hread hunder =>
      have hover : NodeOver env (v.insert s.fresh t) s₁ node t := by
        refine ⟨fun page hp => (by cases hp), fun _ => Or.inl rfl, fun hne => ?_⟩
        refine ⟨List.replicate s.super.fanout none, if_neg (hlevel hne), fun i c e hc he => ?_⟩
        obtain ⟨hlt, -⟩ := List.getElem?_eq_some_iff.mp hc
        rw [List.getElem?_replicate_of_lt (hlt.trans_le hfan)]
        exact .absent (hunder i c e hc he)
      have hmem : Memory env (v.insert s.fresh t) s₁ := by
        refine ⟨fun z u hz => ?_, h.cache, fun z hz => ?_⟩
        · by_cases hzf : z = s.fresh
          · subst hzf
            simp only [View.insert, Function.update_self] at hz
            obtain rfl := Option.some.inj hz
            exact ⟨node, Function.update_self _ _ _, hover⟩
          · simp only [View.insert, Function.update_of_ne hzf] at hz
            obtain ⟨node', hnode', hover'⟩ := h.nodes z u hz
            exact ⟨node', (hother z hzf).trans hnode', hover'.mono hsame hext⟩
        · have hlt : s.fresh + 1 ≤ z := hz
          have hzf : z ≠ s.fresh := by omega
          obtain ⟨hheap, hzero⟩ := h.blank z (by omega)
          refine ⟨(hother z hzf).trans hheap, ?_⟩
          simp [s₁, hzero, hzf]
      have hself : (v.insert s.fresh t).under s.fresh = some t := Function.update_self _ _ _
      obtain ⟨ok, s', hrun, hframe, hgrant, hdone⟩ := hmem.btnodeRead env hself (Or.inr hread)
      have hheap : ∀ z, z ≠ s.fresh → s'.heap z = s.heap z := fun z hz =>
        (hframe z hz).trans (hother z hz)
      cases ok with
      | false =>
          refine ⟨false, s'.freeNode s.fresh, ?_, fun z hz => ?_, hgrant, fun ht => (by cases ht)⟩
          case refine_2 => exact (Function.update_of_ne hz _ _).trans (hheap z hz)
          simp only [Btree.btnodeFetch, halloc, hrun, Option.bind_eq_bind, Option.bind_some,
            Bool.false_eq_true, if_false, Option.pure_def]
      | true =>
          obtain ⟨hmem', hsame', hrefs', hfresh', hpage'⟩ := hdone rfl
          refine ⟨true, s', ?_, hheap, fun _ => rfl,
            fun _ => ⟨hmem', hsame.trans hsame', hrefs', hfresh', hpage'⟩⟩
          simp only [Btree.btnodeFetch, halloc, hrun, Option.bind_eq_bind, Option.bind_some,
            if_true, Option.pure_def]

/-- The child of a twig that has its block. -/
theorem Memory.btnodeFetchTwig (h : Memory env v s) {level i : ℕ} (hx : v.under x = some t)
    (hpage : s.page x = some t.page) (hf : t.Formed s.super.fanout (level + 2)) (hlevel : level + 2 < 2 ^ 8)
    (hc : t.children[i]? = some c) :
    ∃ ok v' s' y, s.btnodeFetchTwig env x i = some (if ok then some y else none, s') ∧
      ((∀ n, env.granted n = true) → ok = true) ∧ (ok = true → v.Extends v' ∧
      Memory env v' s' ∧ Same s s' ∧ s'.refs = s.refs + Pi.single y 1 ∧ v'.under y = some c ∧
      s'.page y = some c.page ∧ s'.page x = some t.page) := by
  obtain ⟨node, hnode, hover⟩ := h.nodes x t hx
  have hdata : node.data = some t.page := by simpa [Btree.page, hnode] using hpage
  obtain ⟨htl, twig, hbody, hlen, hne, hfan, hall⟩ := hf
  obtain ⟨pointers, hp, hchild⟩ := hover.pointers hne
  have htwig : t.page.twig? = some twig := by rw [Page.twig?, hbody]
  have hentries : t.page.entries = twig.entries := by rw [Page.entries, hbody]
  obtain ⟨hlt, -⟩ := List.getElem?_eq_some_iff.mp hc
  obtain ⟨e, he⟩ : ∃ e, twig.entries[i]? = some e :=
    ⟨_, List.getElem?_eq_getElem (hlen ▸ hlt)⟩
  have hat := hchild i c e hc (hentries ▸ he)
  have hcf := hall c (List.mem_of_getElem? hc)
  rw [Btree.btnodeFetchTwig]
  simp only [hnode, hdata, htwig, hp, he, Option.bind_eq_bind, Option.bind_some]
  -- The node is not over its own child.
  have hcx : ∀ y, v.under y = some c → y ≠ x := by
    rintro y hy rfl
    obtain rfl := Option.some.inj (hx.symm.trans hy)
    have := hcf.level
    omega
  generalize hslot : pointers[i]? = o at hat
  cases hat with
  | @present y hy hread =>
      have hsome : (s.addRef y 1).page x = some t.page := hpage
      have hmem := h.addRef env hy 1
      obtain ⟨ok, s', hrun, hheap', hgrant, hdone⟩ :=
        hmem.btnodeRead env hy (hread.imp (fun hr => hr.frame rfl rfl) id)
      refine ⟨ok, v, s', y, ?_, hgrant, fun hok => ?_⟩
      · simp only [Option.bind_some, hrun, Option.pure_def]
      · obtain ⟨hmem', hsame', hrefs', -, hpage'⟩ := hdone hok
        refine ⟨.refl v, hmem', (Same.addRef s y 1).trans hsame', hrefs', hy, hpage', ?_⟩
        have hxy : x ≠ y := (hcx y hy).symm
        rw [← hpage]
        unfold Btree.page
        rw [hheap' x hxy]
        rfl
  | absent hdisk =>
      have hfan' : c.children.length ≤ s.super.fanout := hcf.children_le
      have hl : (t.page.level + 1) % 2 ^ 8 ≠ 1 := by omega
      obtain ⟨ok, s', hrun, hheap', hgrant, hdone⟩ := h.btnodeFetch env hdisk hfan' (fun _ => hl)
      have hxf : x ≠ s.fresh := by
        rintro rfl
        rw [(h.blank _ le_rfl).1] at hnode
        cases hnode
      have hnode' : s'.heap x = some node := (hheap' x hxf).trans hnode
      refine ⟨ok, v.insert s.fresh c, s'.setNode x { node with
        pointers := some (pointers.set i (if ok then some s.fresh else none)) }, s.fresh, ?_, hgrant,
        fun hok => ?_⟩
      · simp only [Option.bind_some, hrun, hnode', Option.pure_def]
      obtain rfl := hok
      obtain ⟨hmem', hsame', hrefs', hfresh', hpage'⟩ := hdone rfl
      have hext := h.extends_fresh env c
      let node₁ : BtNode K := { node with pointers := some (pointers.set i (some s.fresh)) }
      let s₁ := s'.setNode x node₁
      have hyself : (v.insert s.fresh c).under s.fresh = some c := Function.update_self _ _ _
      have hheap₁ : ∀ z, z ≠ x → s₁.heap z = s'.heap z := fun z hz => setNode_heap_ne _ hz _
      have hpages : ∀ z, s₁.page z = s'.page z := fun z => by
        by_cases hz : z = x
        · subst hz
          simp [s₁, Btree.page, setNode_heap_self, hnode', node₁]
        · simp only [Btree.page, hheap₁ z hz]
      have hsame₁ : Same s' s₁ := by
        refine ⟨rfl, rfl, rfl, rfl, rfl, fun z hz => ⟨hpages z, ?_⟩⟩
        by_cases hzx : z = x
        · subst hzx
          obtain ⟨node', hn', hd', hk'⟩ := hz
          obtain rfl := Option.some.inj (hnode'.symm.trans hn')
          exact ⟨node₁, setNode_heap_self _ _ _, hd', hk'⟩
        · exact hz.frame rfl (hheap₁ z hzx)
      have hsame := hsame'.trans hsame₁
      have hover₁ : NodeOver env (v.insert s.fresh c) s₁ node₁ t := by
        refine ⟨hover.data, fun hk => hover.clean (hsame.config ▸ hk), fun _ => ?_⟩
        refine ⟨_, rfl, fun j d e' hd he' => ?_⟩
        by_cases hji : j = i
        · subst hji
          obtain ⟨hltp, -⟩ := List.getElem?_eq_some_iff.mp hslot
          obtain rfl := Option.some.inj (hc.symm.trans hd)
          rw [hentries, he] at he'
          obtain rfl := Option.some.inj he'
          rw [List.getElem?_set_self hltp]
          cases hdisk with
          | intro hread _ =>
              refine .present hyself (Or.inr ?_)
              rw [hsame.disk]
              exact hread
        · rw [List.getElem?_set_ne (Ne.symm hji)]
          exact (hchild j d e' hd he').mono hsame hext
      have hmem₁ : Memory env (v.insert s.fresh c) s₁ := by
        have hxv := hext.under x t hx
        refine hmem'.change hxv hsame₁ (setNode_heap_self _ _ _) hover₁ hheap₁ hmem'.cache rfl ?_
        exact fun z hz => (hmem'.blank z hz).2
      refine ⟨hext, hmem₁, hsame, hrefs', hyself, ?_, ?_⟩
      · exact (hpages s.fresh).trans hpage'
      · refine (hpages x).trans ?_
        unfold Btree.page
        rw [hheap' x hxf]
        exact hpage

end Btree

end Carthage
