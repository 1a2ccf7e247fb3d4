import Carthage.BtreeLookup
import Carthage.BtreeSync

/-!
# Saving a tree

`btree_sync` writes the tree, then its super block, and frees the nodes in memory. What the
tree held is found again, in the handle and in one that `btree_open` makes of the disk.
-/

namespace Carthage

def SuperBlock.rooted (sb : SuperBlock) (p : NodePointer) : SuperBlock :=
  { sb with root := p.blocknr, rootSize := p.size, rootCrc := p.crc }

namespace Btree

variable {K D : Type} {env : BtreeEnv K D} {s s' : Btree K D} {level x y : ℕ} {N N' : List ℕ}
  {L : List (K × List UInt8)} {ys : List ℕ}

/-! ## Freeing the nodes in memory -/

/-- The nodes in `N` are freed. -/
def drop (s : Btree K D) (N : List ℕ) : Btree K D :=
  { s with heap := fun y => if y ∈ N then none else s.heap y }

theorem drop_nil (s : Btree K D) : s.drop [] = s := rfl

theorem drop_heap_mem (hy : y ∈ N) : (s.drop N).heap y = none := if_pos hy

theorem drop_heap (hy : y ∉ N) : (s.drop N).heap y = s.heap y := if_neg hy

theorem drop_drop (s : Btree K D) (N N' : List ℕ) : (s.drop N).drop N' = s.drop (N ++ N') := by
  unfold drop
  congr 1
  funext y
  by_cases hy : y ∈ N' <;> by_cases hy' : y ∈ N <;> simp [hy, hy']

theorem drop_congr (h : ∀ y, y ∈ N ↔ y ∈ N') : s.drop N = s.drop N' := by
  simp only [drop, h]

theorem drop_nodes (h : ∀ y ∈ s.nodes level x, y ∉ N) :
    (s.drop N).nodes level x = s.nodes level x :=
  nodes_congr_on fun y hy => by rw [childNodes, childNodes, drop_heap (h y hy)]

/-- Every path from `x` down ends after `level` nodes. -/
def Depth (s : Btree K D) : ℕ → ℕ → Prop
  | 0, _ => False
  | 1, x => s.childNodes x = []
  | level + 2, x => ∀ y ∈ s.childNodes x, Depth s (level + 1) y

theorem Depth.congr_on (hd : Depth s level x)
    (h : ∀ y ∈ s.nodes level x, s'.childNodes y = s.childNodes y) : Depth s' level x := by
  induction level using Nat.strong_induction_on generalizing x with
  | _ level ih =>
      match level, hd with
      | 1, hd => exact (h x (List.mem_singleton_self x)).trans hd
      | level + 2, hd =>
          rw [nodes] at h
          intro y hy
          rw [h x List.mem_cons_self] at hy
          refine ih (level + 1) (by omega) (hd y hy) fun z hz => ?_
          exact h z (List.mem_cons_of_mem x (List.mem_flatMap.mpr ⟨y, hy, hz⟩))

theorem Depth.pos (hd : Depth s level x) : 0 < level := by
  rcases level with _ | level
  · cases hd
  · exact Nat.succ_pos level

theorem Depth.self (hd : Depth s level x) : x ∈ s.nodes level x := by
  rcases level with _ | _ | level
  · cases hd
  · exact List.mem_singleton_self x
  · exact List.mem_cons_self

theorem Depth.drop (hd : Depth s level x) (h : ∀ y ∈ s.nodes level x, y ∉ N) :
    Depth (s.drop N) level x :=
  hd.congr_on fun y hy => by rw [childNodes, childNodes, drop_heap (h y hy)]

theorem Subtree.depth (h : Subtree s level x L) (ht : Tidy s) : Depth s level x := by
  induction level using Nat.strong_induction_on generalizing x L with
  | _ level ih =>
      match level, h with
      | 1, h => exact ht.leaf h
      | level + 2, ⟨cs, hc, hg⟩ =>
          intro y hy
          rw [ht.twig hc] at hy
          obtain ⟨c, hc, rfl⟩ := List.mem_map.mp hy
          obtain ⟨I, w, hI, -⟩ := hg.group hc
          exact ih (level + 1) (by omega) hI

def Freeable (s : Btree K D) (y : ℕ) : Prop := Evicted s y ∧ s.refs y = 0

theorem Freeable.drop (h : Freeable s y) (hy : y ∉ N) : Freeable (s.drop N) y := by
  obtain ⟨⟨node, hn, hd⟩, hr⟩ := h
  exact ⟨⟨node, (drop_heap hy).trans hn, hd⟩, hr⟩

theorem btnodeFree_evicted (env : BtreeEnv K D) (h : Freeable s x) :
    s.btnodeFree env x = some (s.drop [x]) := by
  obtain ⟨⟨node, hx, hdata⟩, hr⟩ := h
  simp only [btnodeFree, hx, hdata, Option.bind_eq_bind, Option.bind_some, Option.isSome_none,
    Bool.false_eq_true, if_false, freeNode, Option.pure_def]
  congr 1
  unfold drop
  congr 1
  · funext y
    by_cases hy : y = x
    · subst hy
      simp
    · simp [hy]
  · rw [← hr, Function.update_eq_self]

theorem foldlM_drop {free : Btree K D → ℕ → Option (Btree K D)} {level : ℕ}
    (hfree : ∀ s x, Depth s level x → (s.nodes level x).Nodup →
      (∀ y ∈ s.nodes level x, Freeable s y) → free s x = some (s.drop (s.nodes level x)))
    (hd : ∀ y ∈ ys, Depth s level y) (hnd : (ys.flatMap (s.nodes level)).Nodup)
    (hf : ∀ y ∈ ys.flatMap (s.nodes level), Freeable s y) :
    ys.foldlM free s = some (s.drop (ys.flatMap (s.nodes level))) := by
  induction ys generalizing s with
  | nil => rfl
  | cons x ys ih =>
      rw [List.flatMap_cons] at hnd hf ⊢
      obtain ⟨hx, hys, hdisj⟩ := List.nodup_append.mp hnd
      have hstep := hfree s x (hd x List.mem_cons_self) hx fun y hy =>
        hf y (List.mem_append_left _ hy)
      have hout : ∀ y ∈ ys, ∀ z ∈ s.nodes level y, z ∉ s.nodes level x := fun y hy z hz hzx =>
        hdisj z hzx z (List.mem_flatMap.mpr ⟨y, hy, hz⟩) rfl
      have hnodes : ys.flatMap ((s.drop (s.nodes level x)).nodes level) =
          ys.flatMap (s.nodes level) := List.flatMap_congr fun y hy => drop_nodes (hout y hy)
      have hrest := ih (s := s.drop (s.nodes level x))
        (fun y hy => (hd y (List.mem_cons_of_mem x hy)).drop (hout y hy)) (hnodes ▸ hys)
        (fun y hy => by
          rw [hnodes] at hy
          obtain ⟨z, hz, hyz⟩ := List.mem_flatMap.mp hy
          exact (hf y (List.mem_append_right _ hy)).drop (hout z hz y hyz))
      rw [List.foldlM_cons, hstep, Option.bind_eq_bind, Option.bind_some, hrest, drop_drop, hnodes]

theorem memNodesRelease_spec (env : BtreeEnv K D) (hd : Depth s level x)
    (hnd : (s.nodes level x).Nodup) (hf : ∀ y ∈ s.nodes level x, Freeable s y) {fuel : ℕ}
    (hfuel : level ≤ fuel) : memNodesRelease env fuel s x = some (s.drop (s.nodes level x)) := by
  induction level using Nat.strong_induction_on generalizing s x fuel with
  | _ level ih =>
      obtain ⟨n, rfl⟩ : ∃ n, fuel = n + 1 := ⟨fuel - 1, by
        have := hd.pos
        omega⟩
      have hself : x ∈ s.nodes level x := hd.self
      obtain ⟨⟨node, hx, hdata⟩, hr⟩ := hf x hself
      have hfold : memNodesRelease env (n + 1) s x =
          ((s.childNodes x).foldlM (memNodesRelease env n) s).bind fun s => s.btnodeFree env x := by
        simp only [memNodesRelease, hx, hr, ne_eq, not_true_eq_false, if_false,
          Option.bind_eq_bind, Option.bind_some, childNodes, List.reduceOption,
          List.foldlM_filterMap]
        congr 2
        funext s child
        cases child <;> rfl
      rcases level with _ | _ | level
      · cases hd
      · have hlinks : s.childNodes x = [] := hd
        rw [hfold, hlinks, List.foldlM_nil]
        exact btnodeFree_evicted env (hf x hself)
      · rw [nodes] at hnd hf ⊢
        obtain ⟨hxout, hnd⟩ := List.nodup_cons.mp hnd
        have hchildren := foldlM_drop
          (fun s x hd hnd hf => ih (level + 1) (by omega) hd hnd hf (by omega : level + 1 ≤ n))
          hd hnd fun y hy => hf y (List.mem_cons_of_mem x hy)
        have hlast := btnodeFree_evicted env ((hf x List.mem_cons_self).drop hxout)
        rw [hfold, hchildren, Option.bind_some, hlast, drop_drop]
        exact congrArg some (drop_congr fun y => by
          rw [List.mem_append, List.mem_singleton, List.mem_cons, or_comm])

/-! ## Synchronisation -/

variable {store : DiskStore K D} {t : PageTree K} {r : ℕ}

theorem write_super {reserved : ℕ} (hf : Faithful env store reserved) {d : D}
    (hno : store.pages d reserved = none) (sb : SuperBlock) :
    ∃ b d', env.write d reserved 64 (.super sb) 64 = (b, d') ∧
      store d' b = some (.super sb, 64) ∧ store.Grows reserved d d' ∧
      ∀ c page, store.pages d c = some page → store.pages d' c = some page := by
  by_cases hr : reserved = 0
  · subst hr
    obtain ⟨b, d', hwrite, -, -, hnew, hstore⟩ := hf.append d 64 (.super sb) 64
    exact ⟨b, d', hwrite, by rw [hstore, Function.update_self], .of_update hnew hstore,
      fun _ _ => DiskStore.pages_of_update hnew hstore⟩
  · obtain ⟨d', hwrite, hstore⟩ := hf.rewrite d reserved (.super sb) 64 hr
    have hother : ∀ c, c ≠ reserved → store d' c = store d c := fun c hc => by
      rw [hstore, Function.update_of_ne hc]
    refine ⟨reserved, d', hwrite, by rw [hstore, Function.update_self], fun c e hc he => ?_,
      fun c page hp => ?_⟩
    · rw [hother c hc, he]
    · have hc : c ≠ reserved := by
        rintro rfl
        rw [hno] at hp
        cases hp
      rw [DiskStore.pages_congr (hother c hc), hp]

variable [LinearOrder K]

/-- A tree in memory that was never written, in a handle that a caller may see. -/
structure Unwritten (store : DiskStore K D) (s : Btree K D) (level r : ℕ)
    (L : List (K × List UInt8)) : Prop where
  root : s.root = some r
  subtree : Subtree s level r L
  inhabited : L ≠ []
  rising : Rising Prod.fst L
  height : s.super.height = (level + 1) % 2 ^ 8
  levels : level < 2 ^ 8
  narrow : s.super.fanout < 2 ^ 16
  tidy : Tidy s
  unsaved : ∀ y ∈ s.nodes level r, Unsaved s y
  quiet : s.Quiet
  caching : s.cache.size ≠ 0
  cache : s.cache.Good (Cacheable (store.pages s.disk))
  /-- No node block lies where the super block goes. -/
  place : store.pages s.disk s.superOffset = none

/-- The items `L` are in the tree `t` on disk, under the super block. -/
structure Saved (env : BtreeEnv K D) (store : DiskStore K D) (s : Btree K D) (level : ℕ)
    (t : PageTree K) (L : List (K × List UInt8)) : Prop where
  stored : Stored env ⟨fun _ => none, store.pages s.disk⟩ s level t
  holds : t.Holds level L
  refs : s.refs = 0
  root : s.root = none
  super : store s.disk s.superOffset = some (.super s.super, 64)

theorem Unwritten.pending (h : Unwritten store s level r L) :
    Pending store (s.addRef r 1) level r L where
  subtree := h.subtree.frame h.tidy rfl fun _ _ => rfl
  inhabited := h.inhabited
  rising := h.rising
  tidy := h.tidy
  unsaved y hy := h.unsaved y (by rwa [addRef_nodes] at hy)
  held := by
    rw [addRef_self, h.quiet.refs]
    rfl
  idle y _ hne := by simp [addRef, h.quiet.refs, Pi.single_eq_of_ne hne]
  caching := h.caching
  cache := h.cache

/-- A tree that was never written is saved by `btree_sync`, which frees its nodes. -/
theorem Unwritten.btreeSync (h : Unwritten store s level r L)
    (hf : Faithful env store s.superOffset) :
    ∃ s' t p, s.btreeSync env = some (0, s') ∧ Saved env store s' level t L ∧
      s'.super = s.super.rooted p ∧ s'.cache.size = s.cache.size ∧
      (∀ y ∈ s.nodes level r, s'.heap y = none) ∧
      (∀ y ∉ s.nodes level r, s'.heap y = s.heap y) := by
  have hself := mem_nodes_self h.subtree
  have hlevels := h.levels
  have hmax : level ≤ maxLevels := by
    have : maxLevels = 2 ^ 8 := rfl
    omega
  have hzero : s.refs r = 0 := congrFun h.quiet.refs r
  obtain ⟨p, s₁, t, hrun, hwritten⟩ := syncNode_spec env hf h.pending hmax nullPointer
  obtain ⟨s₂, hrelease, hsynced, hevicted, hdisk⟩ :=
    hwritten.release env hself h.caching h.cache hzero
  let super : SuperBlock := s₂.super.rooted p
  have hplace : store.pages s₂.disk s.superOffset = none := by
    rw [DiskStore.pages_congr hsynced.untouched]
    exact h.place
  obtain ⟨b, d, hwrite, hsuper, hgrows, hpages⟩ := write_super hf hplace super
  let s₃ : Btree K D := { s₂ with super := super, superOffset := b, disk := d }
  have hlinks : ∀ y, s₃.childNodes y = s.childNodes y := hsynced.childNodes
  have hnodes : s₃.nodes level r = s.nodes level r := nodes_congr hlinks
  have hrefs : s₃.refs = 0 := hsynced.refs.trans h.quiet.refs
  have hdrop : memNodesRelease env maxLevels s₃ r = some (s₃.drop (s.nodes level r)) := by
    rw [← hnodes]
    refine memNodesRelease_spec env ((h.subtree.depth h.tidy).congr_on fun y _ => hlinks y) ?_
      (fun y hy => ⟨hevicted y (hnodes ▸ hy), congrFun hrefs y⟩) hmax
    rw [hnodes]
    exact h.subtree.nodup h.tidy h.rising
  let s' : Btree K D := { s₃.drop (s.nodes level r) with root := none }
  have hfetch := btreeFetchRoot_resident env h.root h.subtree.resident
  have hoffset : s₂.superOffset = s.superOffset := hsynced.superOffset
  refine ⟨s', t, p, ?_, ?_, congrArg (SuperBlock.rooted · p) hsynced.super, hsynced.cacheSize,
    fun y hy => drop_heap_mem hy, fun y hy => ?_⟩
  · simp only [Btree.btreeSync, h.root, hfetch, hrun, hrelease, hoffset, Option.bind_eq_bind,
      Option.bind_some, lt_irrefl, gt_iff_lt, if_false, Option.pure_def]
    change (memNodesRelease env maxLevels { s₂ with
      super := super, superOffset := (env.write s₂.disk s.superOffset 64 (.super super) 64).1,
      disk := (env.write s₂.disk s.superOffset 64 (.super super) 64).2 } r).bind _ = _
    rw [hwrite]
    change (memNodesRelease env maxLevels s₃ r).bind _ = _
    rw [hdrop]
    rfl
  · have hfanout : s.super.fanout = s'.super.fanout := by
      change s.super.fanout = s₂.super.fanout
      rw [hsynced.super]
    have hheight : s'.super.height = s.super.height := by
      change s₂.super.height = s.super.height
      rw [hsynced.super]
    refine ⟨⟨⟨fun _ _ hx => (nomatch hx), Or.inr ((hsynced.cache h.cache).grows hpages), ?_⟩,
      ?_, ?_, hlevels, hheight.trans h.height, Or.inl ⟨rfl, ?_⟩⟩, hwritten.holds, hrefs, rfl, hsuper⟩
    · intro z hz
      have hfresh : s.fresh ≤ z := hsynced.fresh ▸ hz
      refine ⟨?_, congrFun hrefs z⟩
      by_cases hmem : z ∈ s.nodes level r
      · exact drop_heap_mem hmem
      · rw [← h.quiet.blank z hfresh, ← hsynced.heap z hmem]
        exact drop_heap hmem
    · exact hfanout ▸ hwritten.formed
    · exact hfanout ▸ h.narrow
    · refine hwritten.onDisk d fun c e hc he => hgrows c e hc ?_
      rwa [hdisk]
  · exact (drop_heap hy).trans (hsynced.heap y hy)

end Btree

end Carthage
