import Carthage.BtreeRemove

/-!
# `btree_remove`

A key of a well-formed tree is removed with its value. What is left is a well-formed tree again, or
a single leaf without items, in which lookups find nothing. The exceptions are trees where
`__btree_remove_node` ends at a root with a single entry, or at a full twig.
-/

namespace Carthage

namespace Btree

variable {K D : Type} {s s' t : Btree K D} {E : Prop} {level x : ℕ} {q : K}
  {L A B I C C' : List (K × List UInt8)} {xs ys cs pre post : List (ℕ × K)}
  {above above' : List (List (ℕ × K))} {z : ℕ × K} {place place' : Place} {value : List UInt8}

/-! ## Lowering the root -/

theorem Index.lower (h : Index E s level xs above) (habove : above ≠ []) :
    ∃ r cs, s.root = some r ∧ TwigAt E s r (level + above.length) cs ∧ cs ≠ [] ∧
      ∀ (s' : Btree K D) (c : ℕ × K), cs = [c] → s'.root = some c.1 → s'.config = s.config →
        (∀ y, y ≠ r → s'.heap y = s.heap y) → Index E s' level xs above.dropLast := by
  induction above generalizing level xs with
  | nil => exact absurd rfl habove
  | cons ys above ih =>
      obtain ⟨hg, hi⟩ := h
      cases above with
      | nil =>
          obtain ⟨z, rfl, hroot⟩ := hi
          obtain ⟨A, cs, B, w, rfl, hc, hw, -, hA, hB⟩ := hg.split_upper (U := []) rfl
          obtain rfl := hA.eq_nil
          obtain rfl := hB.eq_nil
          rw [List.nil_append, List.append_nil]
          refine ⟨z.1, cs, hroot, hc, ?_, fun s' c hcs hroot' _ _ => ⟨c, hcs, hroot'⟩⟩
          rintro rfl
          cases hw
      | cons zs above =>
          obtain ⟨r, cs, hroot, hc, hne, hlower⟩ := ih hi (List.cons_ne_nil zs above)
          have hlen : level + (ys :: zs :: above).length = level + 1 + (zs :: above).length := by
            simp only [List.length_cons]
            omega
          refine ⟨r, cs, hroot, hlen ▸ hc, hne, fun s' c hcs hroot' hconfig hheap => ⟨?_, ?_⟩⟩
          · refine hg.mono fun y _ d hd => hd.frame hconfig (hheap y.1 ?_)
            rintro rfl
            have := (hd.unique hc).1
            simp only [List.length_cons] at this
            omega
          · exact hlower s' c hcs hroot' hconfig hheap

theorem Index.nodes_ne (h : Index E s level xs above) : xs ≠ [] := by
  rintro rfl
  induction above generalizing level with
  | nil =>
      obtain ⟨z, hz, -⟩ := h
      cases hz
  | cons ys above ih =>
      obtain ⟨hg, hi⟩ := h
      obtain rfl : ys = [] := by simpa using Grouped.sublist hg
      exact ih hi

/-- The end of `btree_remove`. -/
def lowerRoot (env : BtreeEnv K D) (s : Btree K D) : Option (ℤ × Btree K D) :=
  (s.btreeFetchRoot env).bind fun r => r.1.bind fun root => (r.2.page root).bind fun rpage =>
    if rpage.items = 1 then (r.2.btnodeFetchTwig env root 0).bind fun c => c.1.bind fun child =>
      ({ c.2 with
        root := some child,
        super := { c.2.super with
          height := (c.2.super.height + 2 ^ 8 - 1) % 2 ^ 8,
          nodeCount := sub64 c.2.super.nodeCount 1 } }.btnodeRemove env root).bind fun s₁ =>
        (s₁.btnodeRelease env child).bind fun s₂ => some (0, s₂)
    else (r.2.btnodeRelease env root).bind fun s₁ => some (0, s₁)

/-- What the end of `btree_remove` leaves. -/
structure Lowered (s s' : Btree K D) (xs : List (ℕ × K)) (above above' : List (List (ℕ × K))) :
    Prop where
  index : Index False s' 1 xs above'
  leaves : ∀ y I, LeafAt s y I → LeafAt s' y I
  absent : ∀ y, s.heap y = none → s'.heap y = none
  refs : s'.refs = s.refs
  fresh : s'.fresh = s.fresh
  config : s'.config = s.config
  height : above'.length = above.length ∧ s'.super.height = s.super.height ∨
    above'.length + 1 = above.length ∧ s'.super.height = (s.super.height + 2 ^ 8 - 1) % 2 ^ 8

variable (env : BtreeEnv K D)

theorem lowerRoot_spec (h : Index False s 1 xs above) (habove : above ≠ [])
    (hx : ∀ z ∈ xs, Rooted s 1 z.1) (hr : s.refs = 0) :
    ∃ s' above', s.lowerRoot env = some (0, s') ∧ Lowered s s' xs above above' := by
  obtain ⟨r, cs, hroot, hc, hne, hlower⟩ := h.lower habove
  obtain ⟨r', hroot', hrooted⟩ := h.rooted le_rfl hx
  obtain rfl := Option.some.inj (hroot.symm.trans hroot')
  have hr₀ : 0 ≤ s.refs := hr.ge
  have hfetch := btreeFetchRoot_resident env hroot hc.resident
  have hc₁ : TwigAt False (s.addRef r 1) r (1 + above.length) cs := hc.frame rfl rfl
  obtain ⟨page, hp, -, hpi⟩ := hc₁.page_items
  have hnot : ∀ y I, LeafAt s y I → y ≠ r := by
    rintro y I hl rfl
    exact hl.not_twig hc
  unfold lowerRoot
  rw [hfetch, Option.bind_some, Option.bind_some, hp, Option.bind_some, hpi]
  by_cases hone : cs.length = 1
  swap
  · rw [if_neg hone]
    refine ⟨s, above, ?_, h, fun _ _ => id, fun _ => id, rfl, rfl, rfl, Or.inl ⟨rfl, rfl⟩⟩
    rw [btnodeRelease_added env hc.resident hr₀, Option.bind_some]
  rw [if_pos hone]
  obtain ⟨c, rfl⟩ := List.length_eq_one_iff.mp hone
  obtain ⟨n, hn⟩ : ∃ n, 1 + above.length = n + 2 :=
    ⟨above.length - 1, by have := List.length_pos_iff.mpr habove; omega⟩
  have hchild : Rooted s (n + 1) c.1 := by
    rw [hn] at hrooted
    obtain ⟨cs', -, hc', hall⟩ := hrooted
    exact hall c ((hc.unique hc').2 ▸ List.mem_singleton_self c)
  have hcr : c.1 ≠ r := by
    intro heq
    obtain ⟨page₁, hp₁, hl₁⟩ := hchild.page
    obtain ⟨page₂, hp₂, hl₂, -⟩ := hc.page_items
    rw [heq] at hp₁
    obtain rfl := Option.some.inj (hp₁.symm.trans hp₂)
    omega
  rw [btnodeFetchTwig_resident env hc₁ (i := 0) (z := c) rfl (hchild.resident.frame rfl rfl),
    Option.bind_some, Option.bind_some]
  let s₂ : Btree K D := { (s.addRef r 1).addRef c.1 1 with
    root := some c.1,
    super := { s.super with
      height := (s.super.height + 2 ^ 8 - 1) % 2 ^ 8,
      nodeCount := sub64 s.super.nodeCount 1 } }
  obtain ⟨s₃, hremove, hf⟩ := btnodeRemove_frees env (s := s₂) hc.resident.heap
  have hrefs : s₃.refs = (s.addRef c.1 1).refs := by
    have hcomm : ((s.addRef r 1).addRef c.1 1).refs = ((s.addRef c.1 1).addRef r 1).refs :=
      congrArg Btree.refs (addRef_comm s r c.1 1 1)
    have hzero : (s.addRef c.1 1).refs r = 0 := by
      simp [addRef, hr, hcr.symm]
    calc s₃.refs = Function.update ((s.addRef r 1).addRef c.1 1).refs r 0 := hf.refs
      _ = Function.update ((s.addRef c.1 1).addRef r 1).refs r 0 := by rw [hcomm]
      _ = (s.addRef c.1 1).refs := refs_drop hzero
  have hres : ResidentAt s₃ c.1 := hchild.resident.frame hf.config (hf.heap_ne hcr)
  obtain ⟨hrelease, hback⟩ := btnodeRelease_counted env hres hr₀ hrefs
  refine ⟨s₃.addRef c.1 (-1), above.dropLast, ?_, ?_, fun y I hl => ?_, fun y hy => ?_, hback,
    hf.fresh, hf.config, Or.inr ⟨?_, hf.height⟩⟩
  · change (s₂.btnodeRemove env r).bind _ = _
    rw [hremove, Option.bind_some, hrelease, Option.bind_some]
  · exact hlower _ c rfl hf.root hf.config fun y hy => hf.heap_ne hy
  · exact hl.frame hf.config (hf.heap_ne (hnot y I hl))
  · exact hf.absent (fun _ => id) y hy
  · have := List.length_pos_iff.mpr habove
    rw [List.length_dropLast]
    omega

/-! ## Trees without the key -/

/-- A tree of one leaf without items. -/
structure EmptyLeaf (s : Btree K D) : Prop where
  created : s.super.toGeometry.Created
  quiet : s.Quiet
  height : s.super.height = 2
  root : ∃ r, s.root = some r ∧ LeafAt s r []

theorem leafRemove_at {c : K × List UInt8} (h : LeafAt s x (C ++ c :: C'))
    (hb : s.super.blockSize < 2 ^ 32) (hm : s.super.HeadsMove (C ++ c :: C').length C.length) :
    ∃ s', s.leafRemove x C.length = some s' ∧ Touches [x] s s' ∧ LeafAt s' x (C ++ C') := by
  obtain ⟨s', hremove, htouch, hleaf⟩ := leafRemove_spec h hb hm
  refine ⟨s', ?_, htouch, hleaf⟩
  have hzero := hremove x 0
  simpa [addRef] using hzero

theorem remove_only {v : List UInt8} (hc : s.super.toGeometry.Created) (hr : 0 ≤ s.refs)
    (hl : LeafAt s x [(q, v)]) :
    ∃ s', (((s.addRef x 1).leafRemove x 0).bind fun s₁ =>
        (s₁.btnodeRelease env x).bind fun s₂ => some ((0 : ℤ), s₂)) = some (0, s') ∧
      Touches [x] s s' ∧ LeafAt s' x [] := by
  have hl' : LeafAt s x ([] ++ (q, v) :: []) := hl
  obtain ⟨s', hremove, htouch, hleaf⟩ :=
    leafRemove_spec hl' hc.blockSize fun hc => absurd hc (by simp)
  refine ⟨s', ?_, htouch, hleaf⟩
  have hrelease := btnodeRelease_added env hleaf.resident (htouch.refs ▸ hr)
  have hremove' : (s.addRef x 1).leafRemove x 0 = some (s'.addRef x 1) := hremove x 1
  rw [hremove', Option.bind_some, hrelease, Option.bind_some]

theorem Rooted.not_empty {l : ℕ} (h : Rooted s level x) : ¬ TwigAt False s x l [] := by
  intro ht
  match level, h with
  | 1, ⟨items, hl⟩ => exact hl.not_twig ht
  | level + 2, ⟨cs, hne, hc, _⟩ => exact hne (hc.unique ht).2

theorem Hollow.lowerRoot (h : Hollow s s' level x) (hr : 0 ≤ s.refs) :
    ∃ t, s'.lowerRoot env = some (0, t) ∧ ∃ r l, t.root = some r ∧ TwigAt False t r l [] := by
  obtain ⟨r, l, -, hroot, ht⟩ := h.root
  have hr' : 0 ≤ s'.refs := h.refs ▸ hr
  have hfetch := btreeFetchRoot_resident env hroot ht.resident
  have ht' : TwigAt False (s'.addRef r 1) r l [] := ht.frame rfl rfl
  obtain ⟨page, hp, -, hpi⟩ := ht'.page_items
  refine ⟨s', ?_, r, l, hroot, ht⟩
  rw [Btree.lowerRoot, hfetch, Option.bind_some, Option.bind_some, hp, Option.bind_some, hpi,
    if_neg (by simp), btnodeRelease_added env ht.resident hr', Option.bind_some]

variable [LinearOrder K]

def eraseKey (L : List (K × List UInt8)) (q : K) : List (K × List UInt8) :=
  L.filter fun e => e.1 ≠ q

@[simp] theorem mem_eraseKey {e : K × List UInt8} : e ∈ eraseKey L q ↔ e ∈ L ∧ e.1 ≠ q := by
  rw [eraseKey, List.mem_filter, decide_eq_true_iff]

theorem eraseKey_item {v : List UInt8} (hL : L = A ++ (C ++ (q, v) :: C') ++ B)
    (hs : Rising Prod.fst L) : eraseKey L q = A ++ (C ++ C') ++ B := by
  have hne : ∀ e ∈ A ++ (C ++ C') ++ B, e.1 ≠ q := by
    have hlist : L = (A ++ C) ++ (q, v) :: (C' ++ B) := by rw [hL]; simp
    obtain ⟨-, h2, hcross⟩ := List.pairwise_append.mp (hlist ▸ hs)
    obtain ⟨hq, -⟩ := List.pairwise_cons.mp h2
    intro e he
    have hmem : e ∈ A ++ C ∨ e ∈ C' ++ B := by
      simp only [List.mem_append] at he ⊢
      tauto
    rcases hmem with hmem | hmem
    · exact (hcross e hmem (q, v) List.mem_cons_self).ne
    · exact (hq e hmem).ne'
  have hkeep : (A ++ (C ++ C') ++ B).filter (fun e => e.1 ≠ q) = A ++ (C ++ C') ++ B := by
    rw [List.filter_eq_self]
    exact fun e he => decide_eq_true (hne e he)
  rw [← hkeep, hL, eraseKey]
  simp

theorem LeafFor.erase_only {v : List UInt8} (hz : LeafFor s L xs q pre z post A [(q, v)] B)
    (hs : Rising Prod.fst L) : eraseKey L q = A ++ B := by
  have hitems : L = A ++ ([] ++ (q, v) :: []) ++ B := hz.items
  rw [eraseKey_item hitems hs, List.append_nil, List.append_nil]

/-- A well-formed tree with the items, or a single leaf when there are none. -/
def Formed (s : Btree K D) (L : List (K × List UInt8)) : Prop :=
  WellFormed False s L ∧ L ≠ [] ∨ EmptyLeaf s ∧ L = []

def Removes (s : Btree K D) (L : List (K × List UInt8)) (q : K) : Prop :=
  ∃ s', s.btreeRemove env q = some (0, s') ∧ Formed s' (eraseKey L q)

theorem not_removes_of_none (h : s.btreeRemove env q = none) : ¬ Removes env s L q := by
  rintro ⟨s', h', -⟩
  rw [h] at h'
  cases h'

theorem btreeRemove_hit {page : Page K}
    (hlook : s.btreeLookupLevel env q 1 noPlace = some (some x, place, s.addRef x 1))
    (hfound : place.found = true) (hp : s.page x = some page) :
    s.btreeRemove env q =
      if page.items = 1 then
        if s.super.nodeCount > 1 then
          (btreeRemoveNode env maxLevels (s.addRef x 1) x).bind fun r =>
            if r.1 then r.2.lowerRoot env else none
        else ((s.addRef x 1).leafRemove x 0).bind fun s₁ =>
          (s₁.btnodeRelease env x).bind fun s₂ => some (0, s₂)
      else ((s.addRef x 1).btreeTwigsRemoveUpdate env x place.index).bind fun s₁ =>
        (s₁.leafRemove x place.index).bind fun s₂ =>
          (s₂.btnodeRelease env x).bind fun s₃ => some (0, s₃) := by
  have hp' : (s.addRef x 1).page x = some page := hp
  unfold btreeRemove
  simp only [hlook, hfound, hp', Bool.not_true, Bool.false_eq_true, if_false,
    Option.bind_eq_bind, Option.bind_some, Option.pure_def]
  by_cases hone : page.items = 1
  · by_cases hcount : s.super.nodeCount > 1
    · have hcount' : (s.addRef x 1).super.nodeCount > 1 := hcount
      simp only [if_pos hone, if_pos hcount, if_pos hcount']
      congr 1
      funext r
      obtain ⟨_ | _, s₁⟩ := r
      · rfl
      · rfl
    · have hcount' : ¬ (s.addRef x 1).super.nodeCount > 1 := hcount
      simp only [if_pos hone, if_neg hcount, if_neg hcount']
  · simp only [if_neg hone]

/-! ## A leaf with another item -/

theorem Tree.items_ne (h : Tree E s L xs above) : L ≠ [] := by
  rintro rfl
  have hxs : xs = [] := by simpa using Grouped.sublist h.leaves
  exact h.index.nodes_ne hxs

theorem formed_of (hc : s.super.toGeometry.Created) (hq : s.Quiet)
    (hconfig : s'.config = s.config) (hrefs : s'.refs = s.refs) (hfresh : s'.fresh = s.fresh)
    (habsent : ∀ y, s.heap y = none → s'.heap y = none) (hleaves : Leaves s' L xs)
    (hi : Index False s' 1 xs above) (hs : Rising Prod.fst L)
    (hheight : s'.super.height = above.length + 2) (hlevels : above.length + 2 < 2 ^ 8) :
    Formed s' L := by
  have hgeometry : s'.super.toGeometry = s.super.toGeometry := congrArg Config.geometry hconfig
  have ht : Tree False s' L xs above := ⟨hleaves, hi, hs, hheight, hlevels⟩
  exact Or.inl ⟨⟨hgeometry ▸ hc, ⟨hrefs.trans hq.refs, fun y hy =>
    habsent y (hq.blank y (hfresh ▸ hy))⟩, Or.inr ⟨xs, above, ht⟩⟩, ht.items_ne⟩

/-- The leaves and the index of a tree, whose height is counted in 8 bits. -/
structure Shaped (E : Prop) (s : Btree K D) (L : List (K × List UInt8)) (xs : List (ℕ × K))
    (above : List (List (ℕ × K))) : Prop where
  leaves : Leaves s L xs
  index : Index E s 1 xs above
  rising : Rising Prod.fst L
  height : s.super.height = (above.length + 2) % 2 ^ 8
  levels : above.length + 1 < 2 ^ 8

theorem Tree.shaped (h : Tree E s L xs above) : Shaped E s L xs above := by
  have hlevels := h.levels
  exact ⟨h.leaves, h.index, h.rising, by rw [h.height, Nat.mod_eq_of_lt hlevels], by omega⟩

/-- The super block counts an item less, whose value had `size` bytes. -/
def lessItem (sb : SuperBlock) (size : ℕ) : SuperBlock :=
  { sb with itemCount := sub64 sb.itemCount 1, storedData := sub64 sb.storedData size }

omit [LinearOrder K] in
theorem leafRemove_super {c : K × List UInt8} (h : LeafAt s x (C ++ c :: C'))
    (hrun : s.leafRemove x C.length = some s') : s'.super = lessItem s.super c.2.length := by
  obtain ⟨node, hx, ⟨l⟩⟩ := h
  obtain ⟨slot, hslot, hsize, -⟩ := l.packed.slot
  simp only [Btree.leafRemove, hx, l.data, Page.leaf?, hslot, Option.bind_eq_bind,
    Option.bind_some] at hrun
  obtain ⟨leaf', -, hrun⟩ := Option.bind_eq_some_iff.mp hrun
  obtain rfl := Option.some.inj hrun
  rw [← hsize]
  rfl

/-- What the removal of an item leaves when its leaf has another one. -/
structure LosesItem (E : Prop) (s s' : Btree K D) (above : List (List (ℕ × K)))
    (L : List (K × List UInt8)) (size : ℕ) : Prop where
  shaped : ∃ xs' above', Shaped E s' L xs' above' ∧ above'.length = above.length
  super : s'.super = lessItem s.super size
  cacheSize : s'.cache.size = s.cache.size
  refs : s'.refs = s.refs
  fresh : s'.fresh = s.fresh
  absent : ∀ y, s.heap y = none → s'.heap y = none

theorem Shaped.remove_update {v : List UInt8} (hr : 0 ≤ s.refs) (ht : Shaped E s L xs above)
    (hz : LeafFor s L xs q pre z post A (C ++ (q, v) :: C') B) {w : K × List UInt8}
    (hw : (C ++ C').getLast? = some w) :
    ∃ s₁ above', (s.addRef z.1 1).btreeTwigsRemoveUpdate env z.1 C.length = some s₁ ∧
      Retwig 1 (s.addRef z.1 1) s₁ ∧ Index E s₁ 1 (pre ++ (z.1, w.1) :: post) above' ∧
      above'.length = above.length ∧ ∀ y J, LeafAt s y J → LeafAt s₁ y J := by
  let t := s.addRef z.1 1
  have hlevels := ht.levels
  have hxs : Rising Prod.snd xs := ht.leaves.rising ht.rising
  have hrooted : ∀ y ∈ xs, Rooted s 1 y.1 := fun y hy => by
    obtain ⟨J, w, hl, -⟩ := ht.leaves.group hy
    exact ⟨J, hl⟩
  have hleaf : LeafAt t z.1 (C ++ (q, v) :: C') := hz.leaf.frame rfl rfl
  obtain ⟨crc, leaf, hp, hpacked⟩ := hleaf.page
  obtain ⟨last, hlast, hlabel⟩ := hz.last
  have hkeys : (⟨crc, 1, .leaf leaf⟩ : Page K).keys = C.map Prod.fst ++ q :: C'.map Prod.fst := by
    have hk := hpacked.keys
    rw [List.map_append, List.map_cons] at hk
    exact hk
  have hlast' : (C.map Prod.fst ++ q :: C'.map Prod.fst).getLast? = some z.2 := by
    have hmap : C.map Prod.fst ++ q :: C'.map Prod.fst = (C ++ (q, v) :: C').map Prod.fst := by simp
    rw [hmap, List.getLast?_map, hlast, ← hlabel]
    rfl
  have hnew' : (C.map Prod.fst ++ C'.map Prod.fst).getLast? = some w.1 := by
    rw [← List.map_append, List.getLast?_map, hw]
    rfl
  have hi : Index E t 1 xs above := ht.index.mono rfl fun _ _ _ _ hc => hc.frame rfl rfl
  obtain ⟨s₁, hupdate, hre, hi₁⟩ := btreeTwigsRemoveUpdate_spec env hi hxs le_rfl
    (fun y hy => (hrooted y hy).frame rfl fun _ _ _ _ => rfl) (by omega)
    (addRef_nonneg hr z.1) hp rfl hkeys hlast' hnew'
  rw [List.length_map] at hupdate
  rw [hz.locates.split, rename_label (hz.locates.split ▸ hxs)] at hi₁
  refine ⟨s₁, _, hupdate, hre, hi₁, List.length_map _, fun y J hl => ?_⟩
  obtain ⟨page, hp, hpl, -⟩ := hl.page_items
  exact hl.frame hre.config (hre.low y page hp hpl.le)

theorem Shaped.remove_item {v : List UInt8} (hb : s.super.blockSize < 2 ^ 32) (hr : 0 ≤ s.refs)
    (ht : Shaped E s L xs above) (hz : LeafFor s L xs q pre z post A (C ++ (q, v) :: C') B)
    (hne : C ++ C' ≠ []) (hm : s.super.HeadsMove (C ++ (q, v) :: C').length C.length) :
    ∃ s', (((s.addRef z.1 1).btreeTwigsRemoveUpdate env z.1 C.length).bind fun s₁ =>
        (s₁.leafRemove z.1 C.length).bind fun s₂ =>
          (s₂.btnodeRelease env z.1).bind fun s₃ => some ((0 : ℤ), s₃)) = some (0, s') ∧
      LosesItem E s s' above (A ++ (C ++ C') ++ B) v.length := by
  have hlevels := ht.levels
  have hsplit := hz.locates.split
  obtain ⟨w, hw⟩ := Option.ne_none_iff_exists'.mp (mt List.getLast?_eq_none_iff.mp hne)
  obtain ⟨s₁, above', hupdate, hre, hi₁, hlen, hlow⟩ := ht.remove_update env hr hz hw
  have hb₁ : s₁.super.blockSize < 2 ^ 32 :=
    (congrArg (fun c : Config => c.geometry.blockSize) hre.config).trans_lt hb
  have hm₁ : s₁.super.HeadsMove (C ++ (q, v) :: C').length C.length := by
    have hgeometry : s₁.super.toGeometry = s.super.toGeometry :=
      congrArg Config.geometry hre.config
    rwa [hgeometry]
  obtain ⟨s₂, hremove, htouch, hleaf₂⟩ := leafRemove_at (hlow z.1 _ hz.leaf) hb₁ hm₁
  have hindex : Index E s₂ 1 (pre ++ (z.1, w.1) :: post) above' :=
    htouch.index (fun y hy => ⟨_, List.mem_singleton.mp hy ▸ (hlow z.1 _ hz.leaf).leafIn⟩) hi₁
  have hnames : ∀ y ∈ pre ++ post, y.1 ≠ z.1 := by
    have hl := ht.leaves
    rw [hsplit] at hl
    exact hl.names_ne (fun _ _ _ h h' => h.unique h') ht.rising
  have hleaves : Leaves s₂ (A ++ (C ++ C') ++ B) (pre ++ (z.1, w.1) :: post) :=
    hz.leaves hleaf₂ hw fun y hy J hl =>
      htouch.leafAt (by simpa using hnames y hy) (hlow y.1 J hl)
  obtain ⟨hrelease, hrefs⟩ := btnodeRelease_counted env hleaf₂.resident hr
    (htouch.refs.trans hre.refs)
  have hsuper : s₂.super = lessItem s.super v.length := by
    rw [leafRemove_super (hlow z.1 _ hz.leaf) hremove]
    exact congrArg (fun sb => lessItem sb v.length) hre.super
  have hrising : Rising Prod.fst (A ++ (C ++ C') ++ B) := by
    refine List.Pairwise.sublist ?_ ht.rising
    rw [hz.items]
    exact (((List.sublist_cons_self _ C').append_left C).append_left A).append_right B
  refine ⟨s₂.addRef z.1 (-1), ?_, ⟨_, _, ⟨Grouped.mono hleaves fun _ _ _ hl => hl.frame rfl rfl,
    hindex.mono rfl fun _ _ _ _ hc => hc.frame rfl rfl, hrising, ?_, ?_⟩, hlen⟩,
    hsuper, ?_, hrefs, ?_, fun y hy => ?_⟩
  · rw [hupdate, Option.bind_some, hremove, Option.bind_some, hrelease, Option.bind_some]
  · rw [hlen]
    exact (congrArg SuperBlock.height hsuper).trans ht.height
  · rwa [hlen]
  · exact congrArg Config.cacheSize (htouch.config.trans hre.config)
  · have hfresh₁ : s₁.fresh = s.fresh := by
      obtain ⟨g, rfl⟩ := hre.heap
      rfl
    exact htouch.fresh.trans hfresh₁
  · have hy₁ := hre.absent y hy
    change s₂.heap y = none
    rw [htouch.others y fun hmem => htouch.alive y hmem hy₁, hy₁]

theorem LosesItem.config {size : ℕ} (h : LosesItem E s s' above L size) : s'.config = s.config := by
  unfold Btree.config
  rw [h.super, h.cacheSize]
  rfl

theorem Shaped.remove_stuck {v : List UInt8} (hr : 0 ≤ s.refs) (ht : Shaped E s L xs above)
    (hz : LeafFor s L xs q pre z post A (C ++ (q, v) :: C') B) (hne : C ++ C' ≠ [])
    (hm : ¬ s.super.HeadsMove (C ++ (q, v) :: C').length C.length) :
    (((s.addRef z.1 1).btreeTwigsRemoveUpdate env z.1 C.length).bind fun s₁ =>
        (s₁.leafRemove z.1 C.length).bind fun s₂ =>
          (s₂.btnodeRelease env z.1).bind fun s₃ => some ((0 : ℤ), s₃)) = none := by
  obtain ⟨w, hw⟩ := Option.ne_none_iff_exists'.mp (mt List.getLast?_eq_none_iff.mp hne)
  obtain ⟨s₁, above', hupdate, hre, -, -, hlow⟩ := ht.remove_update env hr hz hw
  have hgeometry : s₁.super.toGeometry = s.super.toGeometry := congrArg Config.geometry hre.config
  have hstuck := leafRemove_stuck (hlow z.1 _ hz.leaf) (by rwa [hgeometry]) z.1 0
  have hself : s₁.addRef z.1 0 = s₁ := by simp [addRef]
  rw [hself] at hstuck
  rw [hupdate, Option.bind_some, hstuck, Option.bind_none]

theorem remove_item {v : List UInt8} (hc : s.super.toGeometry.Created) (hq : s.Quiet)
    (ht : Tree False s L xs above) (hz : LeafFor s L xs q pre z post A (C ++ (q, v) :: C') B)
    (hne : C ++ C' ≠ []) (hm : s.super.HeadsMove (C ++ (q, v) :: C').length C.length) :
    ∃ s', (((s.addRef z.1 1).btreeTwigsRemoveUpdate env z.1 C.length).bind fun s₁ =>
        (s₁.leafRemove z.1 C.length).bind fun s₂ =>
          (s₂.btnodeRelease env z.1).bind fun s₃ => some ((0 : ℤ), s₃)) = some (0, s') ∧
      Formed s' (A ++ (C ++ C') ++ B) := by
  have hlevels := ht.levels
  obtain ⟨s', hrun, hloses⟩ :=
    ht.shaped.remove_item env hc.blockSize hq.refs.ge hz hne hm
  obtain ⟨xs', above', hs', hlen⟩ := hloses.shaped
  refine ⟨s', hrun, formed_of hc hq hloses.config hloses.refs hloses.fresh hloses.absent hs'.leaves
    hs'.index hs'.rising ?_ (by omega)⟩
  rw [hs'.height, hlen, Nat.mod_eq_of_lt hlevels]

/-! ## A leaf with a single item -/

theorem not_formed_of_empty (env : BtreeEnv K D) {L' : List (K × List UInt8)} (hr : 0 ≤ s.refs)
    (ht : Tree False s L xs above) (habove : above ≠ [])
    (hz : LeafFor s L xs q pre z post A I B) (htouch : Touches [z.1] s s')
    (hempty : LeafAt s' z.1 []) : ¬ Formed s' L' := by
  have hlevels := ht.levels
  obtain ⟨r, hroot⟩ := ht.index.root
  rintro (⟨h', -⟩ | ⟨h', -⟩)
  · have hr' : 0 ≤ s'.refs := htouch.refs ▸ hr
    have hi : Index False s' 1 xs above :=
      htouch.index (fun y hy => ⟨_, List.mem_singleton.mp hy ▸ hz.leaf.leafIn⟩) ht.index
    have hsorted : ∀ y ∈ xs, ∃ J, LeafAt s' y.1 J ∧ Rising Prod.fst J := fun y hy => by
      by_cases hyz : y.1 = z.1
      · exact ⟨[], hyz ▸ hempty, List.Pairwise.nil⟩
      · obtain ⟨J, hJ, hs⟩ := ht.leaves.sorted ht.rising y hy
        exact ⟨J, htouch.leafAt (by simpa using hyz) hJ, hs⟩
    obtain ⟨P, v, Q, J, place, hloc, -, -, -, -, -, -, hlook⟩ :=
      hi.search env ht.rising_leaves hsorted (by omega) hr' q noPlace
    obtain ⟨-, rfl, -⟩ := hz.locates.unique hloc
    rcases h'.tree with ⟨hnone, -⟩ | ⟨xs', above', ht'⟩
    · rw [htouch.root, hroot] at hnone
      cases hnone
    · have hlevels' := ht'.levels
      obtain ⟨P', v', Q', A', J', B', place', hz', -, -, -, -, hlook'⟩ :=
        ht'.leaves.search env ht'.index ht'.rising (by omega) hr' q noPlace
      rw [hlook] at hlook'
      have hname : z.1 = v'.1 :=
        Option.some.inj (Prod.mk.inj (Option.some.inj hlook')).1
      obtain ⟨w, hw, -⟩ := hz'.last
      rw [hz'.leaf.unique (hname ▸ hempty)] at hw
      cases hw
  · have hheight := ht.height
    rw [← htouch.height, h'.height] at hheight
    have := List.length_pos_iff.mpr habove
    omega

theorem removeNode_leaf {n : ℕ} {w : K × List UInt8} (hroot : s.root = some x)
    (hl : LeafAt s x I) (hw : I.getLast? = some w) (hr : 0 ≤ s.refs) :
    btreeRemoveNode env (n + 1) s x = some (false, s) := by
  obtain ⟨page, hp, hpl, -⟩ := hl.page_items
  have hrooted : Rooted s 1 x := ⟨I, hl⟩
  obtain ⟨place, hlook⟩ := lookup_above env hroot hrooted (by decide)
    (Nat.lt_succ_self 1) hr w.1 noPlace
  rw [btreeRemoveNode]
  simp only [hl.leafIn.lastKey hw, hp, hpl, hlook, Option.bind_eq_bind, Option.bind_some,
    gt_iff_lt, lt_irrefl, if_false, Option.pure_def]

theorem not_formed_of_hollow {r l : ℕ} {L' : List (K × List UInt8)} (hroot : s.root = some r)
    (ht : TwigAt False s r l []) : ¬ Formed s L' := by
  rintro (⟨h, -⟩ | ⟨h, -⟩)
  · rcases h.tree with ⟨hnone, -⟩ | ⟨xs, above, h⟩
    · rw [hroot] at hnone
      cases hnone
    · obtain ⟨r', hroot', hrooted⟩ := h.index.rooted le_rfl h.rooted
      obtain rfl := Option.some.inj (hroot.symm.trans hroot')
      exact hrooted.not_empty ht
  · obtain ⟨r', hroot', hl⟩ := h.root
    obtain rfl := Option.some.inj (hroot.symm.trans hroot')
    exact hl.not_twig ht

theorem remove_leaf {s₁ : Btree K D} {v : List UInt8} (hc : s.super.toGeometry.Created)
    (hq : s.Quiet) (ht : Tree False s L xs above) (habove : above ≠ [])
    (hz : LeafFor s L xs q pre z post A [(q, v)] B) (hlen : above'.length = above.length)
    (hU : Unlinked s s₁ 1 z.1 (pre ++ post) above') :
    ∃ s', s₁.lowerRoot env = some (0, s') ∧ Formed s' (A ++ B) := by
  have hlevels := ht.levels
  have hheight := ht.height
  have habove' : above' ≠ [] := by
    rw [← List.length_pos_iff, hlen]
    exact List.length_pos_iff.mpr habove
  have hnames : ∀ y ∈ pre ++ post, y.1 ≠ z.1 := by
    have hl := ht.leaves
    rw [hz.locates.split] at hl
    exact hl.names_ne (fun _ _ _ h h' => h.unique h') ht.rising
  have hkeep : ∀ y ∈ pre ++ post, ∀ J, LeafAt s y.1 J → LeafAt s₁ y.1 J := fun y hy J hl => by
    obtain ⟨page, hp, hpl, -⟩ := hl.page_items
    exact hl.frame hU.config (hU.low y.1 page hp hpl.le (hnames y hy))
  have hleaves : Leaves s₁ (A ++ B) (pre ++ post) := by
    have hleft : Leaves s₁ A pre := hz.left.mono fun y hy => hkeep y (List.mem_append_left post hy)
    have hright : Leaves s₁ B post :=
      hz.right.mono fun y hy => hkeep y (List.mem_append_right pre hy)
    exact hleft.append hright
  have hrooted : ∀ y ∈ pre ++ post, Rooted s₁ 1 y.1 := fun y hy => by
    obtain ⟨J, w, hl, -⟩ := hleaves.group hy
    exact ⟨J, hl⟩
  obtain ⟨s', above'', hrun, hlow⟩ :=
    lowerRoot_spec env hU.index habove' hrooted (hU.refs.trans hq.refs)
  have hlower := hlow.height
  rw [hU.height, hheight] at hlower
  refine ⟨s', hrun, formed_of hc hq (hlow.config.trans hU.config) (hlow.refs.trans hU.refs)
    (hlow.fresh.trans hU.fresh) (fun y hy => hlow.absent y (hU.absent y hy))
    (Grouped.mono hleaves fun y _ J hl => hlow.leaves y.1 J hl) hlow.index ?_ ?_ ?_⟩
  · refine List.Pairwise.sublist ?_ ht.rising
    rw [hz.items]
    exact (List.sublist_append_left A [(q, v)]).append_right B
  · omega
  · omega

/-! ## A tree without items -/

namespace EmptyLeaf

theorem search (h : EmptyLeaf s) (q : K) (place : Place) : ∃ r, s.root = some r ∧ LeafAt s r [] ∧
    s.btreeLookupLevel env q 1 place = some (some r, ⟨0, place.size, false⟩, s.addRef r 1) := by
  obtain ⟨r, hroot, hl⟩ := h.root
  refine ⟨r, hroot, hl, ?_⟩
  have hl' : LeafAt (s.addRef r 1) r [] := hl.frame rfl rfl
  obtain ⟨page, hp, hpl, -⟩ := hl'.page_items
  obtain ⟨found, index, size, hsearch, hnode, hmiss, -⟩ := searchNode_leaf hl' q place
  have hnil : indexSearch (([] : List (K × List UInt8)).map Prod.fst) q = some (false, 0) :=
    indexSearch_spec List.Pairwise.nil
  obtain ⟨rfl, rfl⟩ := Prod.mk.inj (Option.some.inj (hsearch.symm.trans hnil))
  obtain rfl := hmiss rfl
  have hfuel : maxLevels = (maxLevels - 1) + 1 := rfl
  rw [btreeLookupLevel_eq env hroot hl.resident, hfuel, lookupLoop]
  simp only [hnode, hp, hpl, if_true, Option.bind_eq_bind, Option.bind_some, Option.pure_def]

theorem lookup (h : EmptyLeaf s) (q : K) (size : ℕ) : s.btreeLookup env q size = some ([], s) := by
  obtain ⟨r, -, hl, hlook⟩ := h.search env q noPlace
  have hrelease := btnodeRelease_added env hl.resident h.quiet.refs.ge
  simp only [btreeLookup, hlook, hrelease, Option.bind_eq_bind, Option.bind_some, Bool.not_false,
    if_true, Option.pure_def]

end EmptyLeaf

/-! ## All branches -/

theorem remove_counted {v : List UInt8} (hc : s.super.toGeometry.Created) (hq : s.Quiet)
    (ht : Tree False s L xs above) (hz : LeafFor s L xs q pre z post A [(q, v)] B)
    (hrun : s.btreeRemove env q = (((s.addRef z.1 1).leafRemove z.1 0).bind fun s₁ =>
      (s₁.btnodeRelease env z.1).bind fun s₂ => some ((0 : ℤ), s₂))) :
    Removes env s L q ↔ above = [] := by
  obtain ⟨s', hremove, htouch, hempty⟩ := remove_only env hc hq.refs.ge hz.leaf
  rw [hremove] at hrun
  by_cases habove : above = []
  · subst habove
    refine iff_of_true ⟨s', hrun, Or.inr ⟨⟨?_, ⟨?_, fun y hy => ?_⟩, ?_, z.1, ?_, hempty⟩, ?_⟩⟩ rfl
    all_goals obtain ⟨hpre, hpost, hroot⟩ := (hz.locates.split ▸ ht.index).alone
    · have hgeometry : s'.super.toGeometry = s.super.toGeometry :=
        congrArg Config.geometry htouch.config
      exact hgeometry ▸ hc
    · exact htouch.refs.trans hq.refs
    · have hy' : s.heap y = none := hq.blank y (htouch.fresh ▸ hy)
      rw [htouch.others y fun hmem => htouch.alive y hmem hy', hy']
    · exact htouch.height.trans ht.height
    · exact htouch.root.trans hroot
    · have hA : A = [] := Grouped.eq_nil (hpre ▸ hz.left)
      have hB : B = [] := Grouped.eq_nil (hpost ▸ hz.right)
      rw [hz.erase_only ht.rising, hA, hB]
      rfl
  · refine iff_of_false ?_ habove
    rintro ⟨s₁, hrun₁, hformed⟩
    rw [hrun] at hrun₁
    obtain ⟨-, rfl⟩ := Prod.mk.inj (Option.some.inj hrun₁)
    exact not_formed_of_empty env hq.refs.ge ht habove hz htouch hempty hformed

theorem remove_linked {v : List UInt8} (hc : s.super.toGeometry.Created) (hq : s.Quiet)
    (ht : Tree False s L xs above) (hz : LeafFor s L xs q pre z post A [(q, v)] B)
    (hrun : s.btreeRemove env q =
      (btreeRemoveNode env maxLevels (s.addRef z.1 1) z.1).bind fun r =>
        if r.1 then r.2.lowerRoot env else none) :
    Removes env s L q ↔ Spared s 1 above z := by
  have hlevels := ht.levels
  have hr : 0 ≤ s.refs := hq.refs.ge
  by_cases habove : above = []
  · subst habove
    obtain ⟨-, -, hroot⟩ := (hz.locates.split ▸ ht.index).alone
    have hleaf : LeafAt (s.addRef z.1 1) z.1 [(q, v)] := hz.leaf.frame rfl rfl
    have hnone : btreeRemoveNode env maxLevels (s.addRef z.1 1) z.1 =
        some (false, s.addRef z.1 1) :=
      removeNode_leaf (n := maxLevels - 1) env hroot hleaf rfl (addRef_nonneg hr z.1)
    rw [hnone, Option.bind_some, if_neg Bool.false_ne_true] at hrun
    exact iff_of_false (not_removes_of_none env hrun) id
  obtain ⟨w, hw, hlabel⟩ := hz.last
  obtain rfl : (q, v) = w := Option.some.inj hw
  have hsingle : Single s 1 z := Or.inl ⟨rfl, v, (hlabel : q = z.2) ▸ hz.leaf⟩
  have hsplit := hz.locates.split
  rcases removeNode_cases env (n := maxLevels) (hsplit ▸ ht.index) (hsplit ▸ ht.rising_leaves)
    (hsplit ▸ ht.rooted) hsingle hr (fun _ _ _ _ => congrFun hq.refs _) hc.blockSize
    (fun hnil => absurd hnil habove) (by omega) (by rw [maxLevels]; omega) with
    ⟨hsp, s₁, above', hnode, hlen, hU⟩ | ⟨hno, hnone | ⟨s₁, hnode, hH⟩ | ⟨hnil, -⟩⟩
  · obtain ⟨s', hlower, hformed⟩ := remove_leaf env hc hq ht habove hz hlen hU
    rw [hnode, Option.bind_some, if_pos rfl, hlower] at hrun
    refine iff_of_true ⟨s', hrun, ?_⟩ hsp
    rw [hz.erase_only ht.rising]
    exact hformed
  · rw [hnone, Option.bind_none] at hrun
    exact iff_of_false (not_removes_of_none env hrun) hno
  · refine iff_of_false ?_ hno
    obtain ⟨s', hlower, r, l, hroot, hempty⟩ := hH.lowerRoot env hr
    rw [hnode, Option.bind_some, if_pos rfl, hlower] at hrun
    rintro ⟨s₂, hrun₂, hformed⟩
    rw [hrun] at hrun₂
    obtain ⟨-, rfl⟩ := Prod.mk.inj (Option.some.inj hrun₂)
    exact not_formed_of_hollow hroot hempty hformed
  · exact absurd hnil habove

def KeepsItem (s : Btree K D) (I : List (K × List UInt8)) (q : K) : Prop :=
  2 ≤ I.length ∧ s.super.HeadsMove I.length (rank (I.map Prod.fst) q)

/-- What a removal needs of the leaf that holds the key, and of the twigs above it: the leaf keeps
an item; or it has no other and is the root, and the super-block counts no other node; or the
lowest twig above with another child lets go of the one below. -/
def Yields (s : Btree K D) (I : List (K × List UInt8)) (q : K) (above : List (List (ℕ × K)))
    (z : ℕ × K) : Prop :=
  KeepsItem s I q ∨ I.length = 1 ∧
    (s.super.nodeCount ≤ 1 ∧ above = [] ∨ 1 < s.super.nodeCount ∧ Spared s 1 above z)

theorem remove_iff {v : List UInt8} (hc : s.super.toGeometry.Created) (hq : s.Quiet)
    (ht : Tree False s L xs above) (hz : LeafFor s L xs q pre z post A (C ++ (q, v) :: C') B) :
    Removes env s L q ↔ Yields s (C ++ (q, v) :: C') q above z := by
  have hlevels := ht.levels
  obtain ⟨pre', z', post', A', I', B', place, hz', hindex, hfound, -, -, hlook⟩ :=
    ht.leaves.search env ht.index ht.rising (by omega) hq.refs.ge q noPlace
  obtain ⟨rfl, rfl, rfl⟩ := hz.locates.unique hz'.locates
  obtain rfl := hz.leaf.unique hz'.leaf
  have hmem : (q, v) ∈ C ++ (q, v) :: C' := by simp
  rw [hz.hit] at hindex
  rw [decide_eq_true (List.mem_map_of_mem (f := Prod.fst) hmem)] at hfound
  obtain ⟨page, hp, -, hcount⟩ := hz.leaf.page_items
  have hrun := btreeRemove_hit env hlook hfound hp
  have hlen : (C ++ (q, v) :: C').length = (C ++ C').length + 1 := by simp; omega
  rw [hindex, hcount] at hrun
  by_cases hne : C ++ C' = []
  swap
  · have hpos := List.length_pos_iff.mpr hne
    rw [Yields, or_iff_left fun hone => by omega, KeepsItem, and_iff_right (by omega), hz.hit]
    rw [if_neg (by omega)] at hrun
    by_cases hm : s.super.HeadsMove (C ++ (q, v) :: C').length C.length
    · obtain ⟨s', hremove, hformed⟩ := remove_item env hc hq ht hz hne hm
      rw [hremove] at hrun
      refine iff_of_true ⟨s', hrun, ?_⟩ hm
      rw [eraseKey_item hz.items ht.rising]
      exact hformed
    · rw [ht.shaped.remove_stuck env hq.refs.ge hz hne hm] at hrun
      exact iff_of_false (not_removes_of_none env hrun) hm
  obtain ⟨rfl, rfl⟩ := List.append_eq_nil_iff.mp hne
  have hone : ([] ++ (q, v) :: [] : List (K × List UInt8)).length = 1 := rfl
  rw [if_pos hone] at hrun
  rw [Yields, or_iff_right fun hkeeps => by have := hkeeps.1; omega, and_iff_right hone]
  by_cases hnodes : s.super.nodeCount > 1
  · rw [if_pos hnodes] at hrun
    rw [or_iff_right fun hle => hle.1.not_gt hnodes, and_iff_right hnodes]
    exact remove_linked env hc hq ht hz hrun
  · rw [if_neg hnodes] at hrun
    rw [or_iff_left fun hlt => hnodes hlt.1, and_iff_right (not_lt.mp hnodes)]
    exact remove_counted env hc hq ht hz hrun

def Removable (s : Btree K D) (L : List (K × List UInt8)) (q : K) : Prop :=
  ∃ xs above pre z post A I B, Tree False s L xs above ∧ LeafFor s L xs q pre z post A I B ∧
    Yields s I q above z

theorem removes_iff (h : WellFormed False s L) (hmem : q ∈ L.map Prod.fst) :
    Removes env s L q ↔ Removable s L q := by
  obtain ⟨⟨k, v⟩, hv, rfl⟩ := List.mem_map.mp hmem
  constructor
  · intro hremoves
    rcases h.tree with ⟨-, -, rfl⟩ | ⟨xs, above, ht⟩
    · cases hv
    have hlevels := ht.levels
    obtain ⟨pre, z, post, A, I, B, place, hz, -⟩ :=
      ht.leaves.search env ht.index ht.rising (by omega) h.quiet.refs.ge k noPlace
    obtain ⟨C, C', rfl, -⟩ := rank_of_mem hz.rising ((hz.mem_iff v).mp hv)
    exact ⟨xs, above, pre, z, post, A, _, B, ht, hz,
      (remove_iff env h.created h.quiet ht hz).mp hremoves⟩
  · rintro ⟨xs, above, pre, z, post, A, I, B, ht, hz, hyields⟩
    obtain ⟨C, C', rfl, -⟩ := rank_of_mem hz.rising ((hz.mem_iff v).mp hv)
    exact (remove_iff env h.created h.quiet ht hz).mpr hyields

/-! ## One key after the other -/

/-- The calls of `btree_remove` for one key after the other, as long as they return 0. -/
def removeAll (env : BtreeEnv K D) : Btree K D → List K → Option (Btree K D)
  | s, [] => some s
  | s, q :: qs => (s.btreeRemove env q).bind fun r =>
      if r.1 = 0 then removeAll env r.2 qs else none

/-- Every call of a run removes its key. -/
def RemovesAll (env : BtreeEnv K D) : Btree K D → List (K × List UInt8) → List K → Prop
  | _, _, [] => True
  | s, L, q :: qs => ∃ s', s.btreeRemove env q = some (0, s') ∧ Formed s' (eraseKey L q) ∧
      RemovesAll env s' (eraseKey L q) qs

/-- Every call of a run finds a leaf that can lose its key. -/
def RemovableAll (env : BtreeEnv K D) : Btree K D → List (K × List UInt8) → List K → Prop
  | _, _, [] => True
  | s, L, q :: qs => Removable s L q ∧ ∀ s', s.btreeRemove env q = some (0, s') →
      RemovableAll env s' (eraseKey L q) qs

theorem Formed.wellFormed (h : Formed s L) (hmem : q ∈ L.map Prod.fst) : WellFormed False s L := by
  rcases h with ⟨h, -⟩ | ⟨-, rfl⟩
  · exact h
  · cases hmem

theorem mem_keys_eraseKey {p : K} (hmem : p ∈ L.map Prod.fst) (hp : p ≠ q) :
    p ∈ (eraseKey L q).map Prod.fst := by
  obtain ⟨e, he, rfl⟩ := List.mem_map.mp hmem
  exact List.mem_map_of_mem (mem_eraseKey.mpr ⟨he, hp⟩)

theorem Formed.lookup (h : Formed s L) (q : K) (size : ℕ) :
    s.btreeLookup env q size = some (((L.lookup q).getD []).take size, s) := by
  rcases h with ⟨h, hne⟩ | ⟨h, rfl⟩
  · rcases h.tree with ⟨-, -, rfl⟩ | ⟨xs, above, ht⟩
    · exact absurd rfl hne
    · exact ht.lookup env h.quiet.refs.ge q size
  · simpa using h.lookup env q size

variable {qs : List K}

theorem removesAll_iff (h : Formed s L) (hqs : qs.Nodup) (hmem : ∀ q ∈ qs, q ∈ L.map Prod.fst) :
    RemovesAll env s L qs ↔ RemovableAll env s L qs := by
  induction qs generalizing s L with
  | nil => rfl
  | cons q qs ih =>
      obtain ⟨hq, hqs⟩ := List.nodup_cons.mp hqs
      obtain ⟨hmemq, hmem⟩ := List.forall_mem_cons.mp hmem
      have hrest : ∀ p ∈ qs, p ∈ (eraseKey L q).map Prod.fst := fun p hp =>
        mem_keys_eraseKey (hmem p hp) (ne_of_mem_of_not_mem hp hq)
      have hiff : Removes env s L q ↔ Removable s L q := removes_iff env (h.wellFormed hmemq) hmemq
      constructor
      · rintro ⟨s', hrun, hformed, hall⟩
        refine ⟨hiff.mp ⟨s', hrun, hformed⟩, fun s₁ hrun₁ => ?_⟩
        rw [hrun] at hrun₁
        obtain ⟨-, rfl⟩ := Prod.mk.inj (Option.some.inj hrun₁)
        exact (ih hformed hqs hrest).mp hall
      · rintro ⟨hone, hall⟩
        obtain ⟨s', hrun, hformed⟩ := hiff.mpr hone
        exact ⟨s', hrun, hformed, (ih hformed hqs hrest).mpr (hall s' hrun)⟩

theorem RemovesAll.formed (h : RemovesAll env s L qs) (hs : Formed s L) :
    ∃ s', removeAll env s qs = some s' ∧ Formed s' (qs.foldl eraseKey L) := by
  induction qs generalizing s L with
  | nil => exact ⟨s, rfl, hs⟩
  | cons q qs ih =>
      obtain ⟨s', hrun, hformed, hall⟩ := h
      obtain ⟨t, hruns, ht⟩ := ih hall hformed
      refine ⟨t, ?_, ht⟩
      rw [removeAll, hrun, Option.bind_some, if_pos rfl, hruns]

theorem foldl_eraseKey : qs.foldl eraseKey L = L.filter fun e => e.1 ∉ qs := by
  induction qs generalizing L with
  | nil => simp
  | cons q qs ih =>
      rw [List.foldl_cons, ih, eraseKey, List.filter_filter]
      congr 1
      funext e
      simp [Bool.and_comm]

/-- The keys of a well-formed tree are removed one after the other exactly when each call finds a
leaf that can lose its key. Searches then find all other keys, and no others. -/
theorem btreeRemove_removes_iff (h : Formed s L) (hqs : qs.Nodup)
    (hmem : ∀ q ∈ qs, q ∈ L.map Prod.fst) :
    (RemovesAll env s L qs ↔ RemovableAll env s L qs) ∧
      (RemovesAll env s L qs → ∃ s', removeAll env s qs = some s' ∧
        Formed s' (L.filter fun e => e.1 ∉ qs) ∧ ∀ q size, s'.btreeLookup env q size =
          some ((((L.filter fun e => e.1 ∉ qs).lookup q).getD []).take size, s')) := by
  refine ⟨removesAll_iff env h hqs hmem, fun hall => ?_⟩
  obtain ⟨s', hruns, hformed⟩ := hall.formed env h
  rw [foldl_eraseKey] at hformed
  exact ⟨s', hruns, hformed, hformed.lookup env⟩

theorem fullLeaf_shaped : Tree False fullLeaf fullItems [(0, 2)] [] :=
  ⟨fullLeaf_tree.leaves, fullLeaf_tree.index, fullLeaf_tree.rising, fullLeaf_tree.height,
    fullLeaf_tree.levels⟩

/-- A leaf with two items loses one of them. -/
theorem btreeRemove_removes_full : RemovesAll memoryEnv fullLeaf fullItems [0] := by
  have hformed : Formed fullLeaf fullItems :=
    Or.inl ⟨⟨fullLeaf_formed.created, fullLeaf_formed.quiet, Or.inr ⟨_, _, fullLeaf_shaped⟩⟩,
      List.cons_ne_nil _ _⟩
  have hloc : Locates [(0, 2)] 0 [] (0, 2) [] := ⟨rfl, by simp, Or.inr rfl⟩
  obtain ⟨A, B, hz⟩ :=
    leafFor_of_locates fullLeaf_tree.leaves fullLeaf_tree.rising hloc fullLeaf_items
  refine (btreeRemove_removes_iff memoryEnv hformed (by decide) (by decide)).1.mpr ⟨?_, ?_⟩
  · exact ⟨_, _, _, _, _, A, fullItems, B, fullLeaf_shaped, hz, Or.inl ⟨by decide, by decide⟩⟩
  · exact fun _ _ => trivial

end Btree

end Carthage
