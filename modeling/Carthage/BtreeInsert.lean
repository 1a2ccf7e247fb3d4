import Carthage.BtreeLeaves

/-!
# Inserting a key

The branches of `btree_insert` for a key that is not in the tree: the leaf has room, the
key goes to a new leaf at the end, or the leaf is split.
-/

namespace Carthage

theorem last_middle {α : Type} {A B : List α} {w : α} (hw : (A ++ B).getLast? = some w) (a : α) :
    (A ++ a :: B).getLast? = some (if B = [] then a else w) := by
  cases B with
  | nil => simp
  | cons b B =>
      rw [if_neg (List.cons_ne_nil b B), ← hw]
      simp

namespace Btree

variable {K D : Type} {s s' s'' : Btree K D} {x f : ℕ} {q : K} {value : List UInt8}
  {L A B C C' I : List (K × List UInt8)} {xs pre post : List (ℕ × K)}
  {above above' : List (List (ℕ × K))} {z : ℕ × K} {place place' : Place}

variable [LinearOrder K] (env : BtreeEnv K D)

/-- A tree with items `L`, whose height may be more than `sb_height` counts. -/
structure Standing (s : Btree K D) (L : List (K × List UInt8)) (xs : List (ℕ × K))
    (above : List (List (ℕ × K))) : Prop where
  ready : Ready s
  leaves : Leaves s L xs
  index : Index True s 1 xs above
  rising : Rising Prod.fst L
  height : s.super.height = (1 + above.length + 1) % 2 ^ 8
  levels : above.length + 1 < 2 ^ 8

namespace Standing

theorem upper (h : Standing s L xs above) : Upper s 1 xs above := by
  have hunder : Under s L [] xs := h.leaves
  exact ⟨h.index, hunder.rising h.rising, hunder.rooted, fun _ => hunder.keys, h.height⟩

theorem search (h : Standing s L xs above) (q : K) (place : Place) :
    ∃ pre z post A I B place', LeafFor s L xs q pre z post A I B ∧
      place'.index = rank (I.map Prod.fst) q ∧ place'.found = decide (q ∈ I.map Prod.fst) ∧
      (q ∉ L.map Prod.fst → place'.size = place.size) ∧
      (∀ v, (q, v) ∈ I → place'.size = v.length) ∧
      s.btreeLookupLevel env q 1 place = some (some z.1, place', s.addRef z.1 1) :=
  h.leaves.search env h.index h.rising h.levels h.ready.refs q place

theorem lookup (h : Standing s L xs above) (q : K) (size : ℕ) :
    s.btreeLookup env q size = some (((L.lookup q).getD []).take size, s) := by
  obtain ⟨pre, z, post, I, hloc, hI, -, hrun⟩ := h.index.lookup env (Grouped.rising h.leaves h.rising)
    (h.leaves.sorted h.rising) h.levels h.ready.refs q size
  obtain ⟨A, B, hfor⟩ := leafFor_of_locates h.leaves h.rising hloc hI
  rw [hrun, hfor.lookup]

theorem resident (h : Standing s L xs above) {v : ℕ × K} (hv : v ∈ xs) : ResidentAt s v.1 :=
  (h.upper.rooted v hv).resident

theorem recount (h : Standing s L xs above) {r : ℕ → ℤ} (hr : Ready { s with refs := r }) :
    Standing { s with refs := r } L xs above :=
  ⟨hr, Grouped.mono h.leaves fun _ _ _ hl => hl.frame rfl rfl,
    h.index.mono rfl fun _ _ _ _ hc => hc.frame rfl rfl, h.rising, h.height, h.levels⟩

theorem addRef (h : Standing s L xs above) {y : ℕ} (hy : s.heap y ≠ none) :
    Standing (s.addRef y 1) L xs above := h.recount (h.ready.addRef hy)

theorem release (h : Standing s' L xs above) {v : ℕ × K} (hv : v ∈ xs) (hr : 0 ≤ s.refs)
    (hrefs : s'.refs = (s.addRef v.1 1).refs) :
    ∃ t, s'.btnodeRelease env v.1 = some t ∧ t.refs = s.refs ∧ Standing t L xs above := by
  obtain ⟨hrelease, hrefs'⟩ := btnodeRelease_counted env (h.resident hv) hr hrefs
  exact ⟨_, hrelease, hrefs', h.recount (h.ready.release (h.resident hv).heap (hrefs' ▸ hr))⟩

end Standing

theorem Tree.standing (ht : Tree True s L xs above) (hr : Ready s) : Standing s L xs above := by
  have hlevels := ht.levels
  refine ⟨hr, ht.leaves, ht.index, ht.rising, ?_, by omega⟩
  rw [ht.height, Nat.mod_eq_of_lt (by omega)]
  omega

theorem LeafFor.frame (h : LeafFor s L xs q pre z post A I B) (hc : s'.config = s.config)
    (hh : s'.heap = s.heap) : LeafFor s' L xs q pre z post A I B :=
  { h with
    leaf := h.leaf.frame hc (congrFun hh _)
    left := Grouped.mono h.left fun _ _ _ hl => hl.frame hc (congrFun hh _)
    right := Grouped.mono h.right fun _ _ _ hl => hl.frame hc (congrFun hh _) }

theorem LeafFor.cut (h : LeafFor s L xs q pre z post A I B) (hq : q ∉ L.map Prod.fst) :
    ∃ C C', I = C ++ C' ∧ rank (I.map Prod.fst) q = C.length ∧
      (∀ x ∈ A ++ C, x.1 < q) ∧ (∀ x ∈ C' ++ B, q < x.1) ∧ (C' = [] → post = [] ∧ B = []) := by
  obtain ⟨C, C', rfl, h1, h2, hrank⟩ := split_rank h.rising q
  refine ⟨C, C', rfl, hrank, fun x hx => ?_, fun x hx => ?_, ?_⟩
  · exact (List.mem_append.mp hx).elim (h.before x) (h1 x)
  · rcases List.mem_append.mp hx with hx | hx
    · refine lt_of_le_of_ne (h2 x hx) fun hqx => hq (h.key_mem_iff.mpr ?_)
      exact List.mem_map.mpr ⟨x, List.mem_append_right C hx, hqx.symm⟩
    · exact (h.after x hx).1
  · rintro rfl
    obtain ⟨w, hw, hwz⟩ := h.last
    have hpost : post = [] := by
      apply h.locates.stop.resolve_left
      rw [← hwz]
      rw [List.append_nil] at hw
      exact not_le.mpr (h1 w (List.mem_of_getLast? hw))
    subst hpost
    exact ⟨rfl, Grouped.eq_nil h.right⟩

theorem LeafFor.leaves {I' : List (K × List UInt8)} {w : K × List UInt8}
    (h : LeafFor s L xs q pre z post A I B) (hz : LeafAt s' z.1 I') (hw : I'.getLast? = some w)
    (hothers : ∀ v ∈ pre ++ post, ∀ J, LeafAt s v.1 J → LeafAt s' v.1 J) :
    Leaves s' (A ++ I' ++ B) (pre ++ (z.1, w.1) :: post) := by
  have hleft : Leaves s' A pre := h.left.mono fun v hv => hothers v (List.mem_append_left post hv)
  have hright : Leaves s' B post :=
    h.right.mono fun v hv => hothers v (List.mem_append_right pre hv)
  have hmid : Leaves s' I' [(z.1, w.1)] :=
    Grouped.single (P := fun y items => LeafAt s' y items) hz hw
  have hall : Leaves s' (A ++ I' ++ B) (pre ++ [(z.1, w.1)] ++ post) :=
    (hleft.append hmid).append hright
  have hlist : pre ++ [(z.1, w.1)] ++ post = pre ++ (z.1, w.1) :: post := by simp
  rwa [hlist] at hall

theorem LeafFor.ne (h : LeafFor s L xs q pre z post A I B) (hL : Leaves s L xs)
    (hs : Rising Prod.fst L) : ∀ v ∈ pre ++ post, v.1 ≠ z.1 := by
  rw [h.locates.split] at hL
  exact Grouped.names_ne hL (fun _ _ _ h h' => h.unique h') hs

theorem rising_middle_item {M N : List (K × List UInt8)} (hs : Rising Prod.fst (M ++ N))
    (hM : ∀ x ∈ M, x.1 < q) (hN : ∀ x ∈ N, q < x.1) (value : List UInt8) :
    Rising Prod.fst (M ++ (q, value) :: N) := by
  obtain ⟨h1, h2, hcross⟩ := List.pairwise_append.mp hs
  refine List.pairwise_append.mpr ⟨h1, List.pairwise_cons.mpr ⟨hN, h2⟩, fun a ha b hb => ?_⟩
  rcases List.mem_cons.mp hb with rfl | hb
  · exact hM a ha
  · exact hcross a ha b hb

theorem insert_miss {page : Page K} {r : ℕ} (hroot : s.root = some r)
    (hlook : s.btreeLookupLevel env q 1 place = some (some x, place', s.addRef x 1))
    (hfound : place'.found = false) (hp : s.page x = some page) (value : List UInt8) :
    s.btreeInsert env q value place =
      if place'.size = value.length then
        ((s.addRef x 1).leafInlineReplace x place'.index value).bind fun s₁ =>
          (s₁.btnodeRelease env x).bind fun s₂ => some ((0 : ℤ), s₂)
      else if page.free % 2 ^ 32 ≥ s.super.itemNeeded value.length % 2 ^ 32 then
        ((s.addRef x 1).btreeTwigsInsertUpdate env x place'.index q).bind fun s₁ =>
          (s₁.leafInsert x place'.index q value).bind fun s₂ =>
            (s₂.btnodeRelease env x).bind fun s₃ => some ((0 : ℤ), s₃)
      else if place'.index < page.items then
        ((s.addRef x 1).btreeLeafSplitInsert env x q value).bind fun r =>
          (r.2.btnodeRelease env x).bind fun s₁ => some ((if r.1 ≠ 0 then 2 else 0 : ℤ), s₁)
      else
        match (s.addRef x 1).btnodeAlloc env 1 with
        | (none, s₁) => (s₁.btnodeRelease env x).bind fun s₂ => some ((3 : ℤ), s₂)
        | (some f, s₁) =>
            (s₁.leafInsert f 0 q value).bind fun s₂ =>
              (btreeInsertNode env maxLevels s₂ f).bind fun r =>
                if r.1 ≠ 0 then (r.2.btnodeRelease env x).bind fun s₃ =>
                  (s₃.btnodeFree env f).bind fun s₄ => some ((4 : ℤ), s₄)
                else (r.2.btnodeRelease env f).bind fun s₃ =>
                  (s₃.btnodeRelease env x).bind fun s₄ => some (0, s₄) := by
  have hp' : (s.addRef x 1).page x = some page := hp
  unfold btreeInsert
  rw [hroot]
  change (s.btreeLookupLevel env q 1 place).bind _ = _
  rw [hlook, Option.bind_some]
  change ((s.addRef x 1).page x).bind _ = _
  rw [hp', Option.bind_some, hfound]
  simp only [Bool.false_eq_true, if_false, Nat.add_zero]
  rfl

/-- Where the search for a key ends that is not in the tree: between the items `C` and `C'` of
the leaf `z`. -/
structure Miss (s : Btree K D) (L : List (K × List UInt8)) (xs : List (ℕ × K)) (q : K)
    (place place' : Place) (pre : List (ℕ × K)) (z : ℕ × K) (post : List (ℕ × K))
    (A C C' B : List (K × List UInt8)) : Prop where
  leaf : LeafFor s L xs q pre z post A (C ++ C') B
  index : place'.index = C.length
  found : place'.found = false
  size : place'.size = place.size
  before : ∀ x ∈ A ++ C, x.1 < q
  behind : ∀ x ∈ C' ++ B, q < x.1
  last : C' = [] → post = [] ∧ B = []
  lookup : s.btreeLookupLevel env q 1 place = some (some z.1, place', s.addRef z.1 1)

theorem Standing.miss (h : Standing s L xs above) (hq : q ∉ L.map Prod.fst) (place : Place) :
    ∃ place' pre z post A C C' B, Miss env s L xs q place place' pre z post A C C' B := by
  obtain ⟨pre, z, post, A, I, B, place', hfor, hindex, hfound, hsize, -, hlook⟩ :=
    h.search env q place
  obtain ⟨C, C', rfl, hrank, hbefore, hbehind, hlast⟩ := hfor.cut hq
  refine ⟨place', pre, z, post, A, C, C', B, hfor, hindex.trans hrank, ?_, hsize hq, hbefore,
    hbehind, hlast, hlook⟩
  rw [hfound]
  exact decide_eq_false fun hmem => hq (hfor.key_mem_iff.mpr hmem)

namespace Miss

variable {env}

theorem items (h : Miss env s L xs q place place' pre z post A C C' B) :
    L = A ++ C ++ (C' ++ B) := by
  rw [h.leaf.items]
  simp

end Miss

theorem Standing.relabel {I' : List (K × List UInt8)} {w : K × List UInt8}
    (h : Standing s L xs above) (hz : LeafFor s L xs q pre z post A I B) (hready : Ready s')
    (hleaf : LeafAt s' z.1 I') (hw : I'.getLast? = some w)
    (hothers : ∀ v ∈ pre ++ post, ∀ J, LeafAt s v.1 J → LeafAt s' v.1 J)
    (hi : Index True s' 1 (pre ++ (z.1, w.1) :: post) above') (hlen : above'.length = above.length)
    (hs : Rising Prod.fst (A ++ I' ++ B)) (hh : s'.super.height = s.super.height) :
    Standing s' (A ++ I' ++ B) (pre ++ (z.1, w.1) :: post) above' := by
  have hlevels := h.levels
  refine ⟨hready, hz.leaves hleaf hw hothers, hi, hs, ?_, by omega⟩
  rw [hh, hlen]
  exact h.height

/-- What an insertion into the leaf `y` with its separators leaves. -/
structure Put (s s' : Btree K D) (y : ℕ) (I : List (K × List UInt8)) (xs : List (ℕ × K))
    (above : List (List (ℕ × K))) : Prop where
  leaf : LeafAt s' y I
  index : Index True s' 1 xs above
  others : ∀ v J, v ≠ y → LeafAt s v J → LeafAt s' v J
  refs : s'.refs = s.refs
  height : s'.super.height = s.super.height
  config : s'.config = s.config
  ready : Ready s'

theorem leafPut_spec {y : ℕ} {w : K × List UInt8} (h : Upper s 1 xs above) (hr : Ready s)
    (hfit : above.length + 1 < 2 ^ 8) (hy : LeafAt s y (C ++ C'))
    (hw : (C ++ C').getLast? = some w) {page : Page K} (hp : s.page y = some page)
    (hroom : s.super.itemNeeded value.length ≤ page.free) (i : ℕ) :
    ∃ s₁ s₂, s.btreeTwigsInsertUpdate env y i q = some s₁ ∧
      s₁.leafInsert y C.length q value = some s₂ ∧
      Put s s₂ y (C ++ (q, value) :: C')
        (xs.map (rename w.1 (if i = (C ++ C').length then q else w.1)))
        (above.map (List.map (rename w.1 (if i = (C ++ C').length then q else w.1)))) := by
  obtain ⟨page', hp', hlevel, hitems⟩ := hy.page_items
  obtain rfl := Option.some.inj (hp.symm.trans hp')
  obtain ⟨s₁, hupdate, hre, hi₁, -⟩ := btreeTwigsInsertUpdate_spec env h.index h.rising le_rfl
    h.rooted (by omega) hr.refs hp hlevel (hy.leafIn.lastKey hw) i q
  rw [hitems] at hi₁
  have hlow : ∀ v J, LeafAt s v J → LeafAt s₁ v J := fun v J hv => hre.sameBelow.leafAt le_rfl hv
  have hy₁ : LeafAt s₁ y (C ++ C') := hlow y _ hy
  have hp₁ : s₁.page y = some page := by
    unfold Btree.page
    rw [hre.low y page hp hlevel.le]
    exact hp
  have hsuper : s₁.super = s.super := hre.super
  have hroom₁ : ∀ p, s₁.page y = some p → s₁.super.itemNeeded value.length ≤ p.free := by
    intro p hp
    obtain rfl := Option.some.inj (hp₁.symm.trans hp)
    rw [hsuper]
    exact hroom
  have hspec : ∃ s₂, s₁.leafInsert y C.length q value = some s₂ ∧ Touches [y] s₁ s₂ ∧
      LeafAt s₂ y (C ++ (q, value) :: C') :=
    leafInsert_spec _ hy₁.leafIn (hsuper ▸ hr.created.blockSize) hroom₁
  obtain ⟨s₂, hins, htouch, hleaf₂⟩ := hspec
  refine ⟨s₁, s₂, hupdate, hins, hleaf₂, htouch.index (fun v hv => ⟨C ++ C', ?_⟩) hi₁,
    fun v J hv hJ => htouch.leafAt (by simpa using hv) (hlow v J hJ), htouch.refs.trans hre.refs,
    htouch.height.trans (congrArg SuperBlock.height hsuper), htouch.config.trans hre.config,
    htouch.ready (hr.retwig hre)⟩
  rw [List.mem_singleton.mp hv]
  exact hy₁.leafIn

theorem Standing.put (h : Standing s L xs above)
    (hz : LeafFor s L xs q pre z post A (C ++ C') B) (hbefore : ∀ x ∈ A ++ C, x.1 < q)
    (hbehind : ∀ x ∈ C' ++ B, q < x.1) {page : Page K} (hp : s.page z.1 = some page)
    (hroom : s.super.itemNeeded value.length ≤ page.free) (i : ℕ)
    (hi : i = (C ++ C').length ↔ C' = []) :
    ∃ s₁ s₂ m above', s.btreeTwigsInsertUpdate env z.1 i q = some s₁ ∧
      s₁.leafInsert z.1 C.length q value = some s₂ ∧
      Standing s₂ (A ++ C ++ (q, value) :: (C' ++ B)) (pre ++ (z.1, m) :: post) above' ∧
      s₂.refs = s.refs ∧ above'.length = above.length := by
  obtain ⟨w, hw, hwz⟩ := hz.last
  obtain ⟨s₁, s₂, hupdate, hins, hput⟩ :=
    leafPut_spec env (q := q) h.upper h.ready h.levels hz.leaf hw hp hroom i
  have hlabel : xs.map (rename w.1 (if i = (C ++ C').length then q else w.1)) =
      pre ++ (z.1, (if C' = [] then (q, value) else w).1) :: post := by
    have hrising := h.upper.rising
    rw [hz.locates.split] at hrising ⊢
    rw [hwz, rename_label hrising]
    simp only [hi]
    split_ifs <;> simp [hwz]
  have hix := hput.index
  rw [hlabel] at hix
  have hothers : ∀ v ∈ pre ++ post, ∀ J, LeafAt s v.1 J → LeafAt s₂ v.1 J :=
    fun v hv J hJ => hput.others v.1 J (hz.ne h.leaves h.rising v hv) hJ
  have hrise : Rising Prod.fst (A ++ (C ++ (q, value) :: C') ++ B) := by
    have hs := h.rising
    have heq : A ++ (C ++ C') ++ B = A ++ C ++ (C' ++ B) := by simp
    rw [hz.items, heq] at hs
    have hmid := rising_middle_item hs hbefore hbehind value
    simpa using hmid
  have hstand := h.relabel hz hput.ready hput.leaf (last_middle hw (q, value)) hothers hix
    (List.length_map _) hrise hput.height
  exact ⟨s₁, s₂, _, _, hupdate, hins, by simpa using hstand, hput.refs, List.length_map _⟩

theorem Linked.standing (h : Linked s s' 1 xs above above') (hL : Leaves s L xs)
    (hs : Rising Prod.fst L) (hfit : above.length + 2 < 2 ^ 8) : Standing s' L xs above' := by
  have hgrown := h.grown
  have hunder : Under s L [] xs := hL
  exact ⟨h.ready, hunder.same h.below, h.upper.index, hs, h.upper.height, by omega⟩

theorem insert_room (h : Standing s L xs above)
    (hm : Miss env s L xs q place place' pre z post A C C' B) (hsize : place.size ≠ value.length)
    {page : Page K} (hp : s.page z.1 = some page)
    (hroom : s.super.itemNeeded value.length ≤ page.free) :
    ∃ s' xs' above', s.btreeInsert env q value place = some (0, s') ∧ s'.refs = s.refs ∧
      Standing s' (A ++ C ++ (q, value) :: (C' ++ B)) xs' above' ∧
      above'.length = above.length := by
  obtain ⟨r, hroot⟩ := h.index.root
  let s₀ := s.addRef z.1 1
  have h₀ : Standing s₀ L xs above := h.addRef hm.leaf.leaf.resident.heap
  have hiff : C.length = (C ++ C').length ↔ C' = [] := by simp
  obtain ⟨s₁, s₂, m, above', hupdate, hins, hstand, hput, hlen⟩ := h₀.put env
    (hm.leaf.frame rfl rfl) hm.before hm.behind (show s₀.page z.1 = some page from hp) hroom _ hiff
  have hz : (z.1, m) ∈ pre ++ (z.1, m) :: post := by simp
  obtain ⟨s₃, hrelease, hrefs, hstand₃⟩ := hstand.release env hz h.ready.refs hput
  refine ⟨s₃, _, _, ?_, hrefs, hstand₃, hlen⟩
  obtain ⟨crc, leaf, hpleaf, hpacked⟩ := hm.leaf.leaf.page
  obtain rfl := Option.some.inj (hpleaf.symm.trans hp)
  have hfree : leaf.free < 2 ^ 32 := hpacked.free_lt h.ready.created.blockSize
  have hneeded : s.super.itemNeeded value.length ≤ leaf.free := hroom
  rw [insert_miss env hroot hm.lookup hm.found hp, if_neg (hm.size ▸ hsize), if_pos, hm.index]
  · change (s₀.btreeTwigsInsertUpdate env z.1 C.length q).bind _ = _
    rw [hupdate, Option.bind_some, hins, Option.bind_some, hrelease, Option.bind_some]
  · change leaf.free % 2 ^ 32 ≥ _
    rw [Nat.mod_eq_of_lt hfree, Nat.mod_eq_of_lt (lt_of_le_of_lt hneeded hfree)]
    exact hneeded

/-- The key goes behind all others, and the last leaf has no room: it gets a leaf of its own. -/
theorem insert_append {r : ℕ} (hg : NodeGranted env s.mallocs) (h : Standing s L xs above)
    (hreq : LinkRequests s 1 (names above) z.1 r) (hgr : NodesGranted env (s.mallocs + 2) r)
    (hfit : above.length + 2 < 2 ^ 8)
    (hm : Miss env s L xs q place place' pre z post A C [] B) (hsize : place.size ≠ value.length)
    {page : Page K} (hp : s.page z.1 = some page)
    (hfull : ¬ s.super.itemNeeded value.length ≤ page.free)
    (hlarge : s.super.itemNeeded value.length ≤ s.super.nodeSpace) :
    ¬ Takes s 1 above z.1 ∧ s.btreeInsert env q value place = none ∨
    Takes s 1 above z.1 ∧ ∃ s' xs' above', s.btreeInsert env q value place = some (0, s') ∧
      s'.refs = s.refs ∧ Standing s' (A ++ C ++ (q, value) :: ([] ++ B)) xs' above' ∧
      above'.length ≤ above.length + 1 := by
  obtain ⟨r, hroot⟩ := h.index.root
  obtain ⟨rfl, rfl⟩ := hm.last rfl
  have hitems : L = A ++ C := by simpa using hm.leaf.items
  have hxs : xs = pre ++ [z] := hm.leaf.locates.split
  subst hxs
  have hz := hm.leaf.leaf.resident
  obtain ⟨t, hins, hleaf, hbelow, hroot', hheight, hrefs, hready, hmallocs⟩ :=
    newLeaf_spec env.uninit h.ready hz.heap hlarge q
  have hunder : Under s L [] (pre ++ [z]) := h.leaves
  have hleaves : Leaves t L (pre ++ [z]) := hunder.same (hbelow 1)
  have hnew : Leaves t [(q, value)] [(s.fresh, q)] :=
    Grouped.single (P := fun y items => LeafAt t y items) hleaf rfl
  have hall : Leaves t (L ++ [(q, value)]) (pre ++ [z] ++ [(s.fresh, q)]) := hleaves.append hnew
  have hrise : Rising Prod.fst (L ++ [(q, value)]) := by
    have hs := h.rising
    rw [← List.append_nil L] at hs
    refine rising_middle_item hs (fun x hx => hm.before x ?_) (by simp) value
    rwa [hitems] at hx
  have hup : Upper t 1 (pre ++ [z] ++ []) above := by
    rw [List.append_nil]
    exact h.upper.same hbelow hroot' hheight
  have hnames : ∀ y l cs, TwigAt False s y l cs →
      ∃ cs', TwigAt False t y l cs' ∧ cs'.map Prod.fst = cs.map Prod.fst :=
    fun y l cs hc => ⟨cs, (hbelow l).twigAt le_rfl hc, rfl⟩
  have hgeometry : t.super.toGeometry = s.super.toGeometry :=
    congrArg Config.geometry (hbelow 1).config
  have htakes : Takes t 1 above z.1 ↔ Takes s 1 above z.1 := by
    have hself : above.map (List.map (rename q q)) = above :=
      (List.map_congr_left fun ys _ => map_rename_self q).trans (List.map_id _)
    have hcongr := takes_congr h.index hgeometry hnames (v := z.1) q q
    rwa [hself] at hcongr
  have hrun : s.btreeInsert env q value place =
      (btreeInsertNode env maxLevels t s.fresh).bind fun r =>
        if r.1 ≠ 0 then (r.2.btnodeRelease env z.1).bind fun s₃ =>
          (s₃.btnodeFree env s.fresh).bind fun s₄ => some ((4 : ℤ), s₄)
        else (r.2.btnodeRelease env s.fresh).bind fun s₃ =>
          (s₃.btnodeRelease env z.1).bind fun s₄ => some (0, s₄) := by
    have hlt := hm.leaf.leaf.full hp h.ready.created hlarge hfull
    have hindex : ¬ place'.index < page.items := by
      obtain ⟨page', hp', -, hcount⟩ := hm.leaf.leaf.page_items
      obtain rfl := Option.some.inj (hp'.symm.trans hp)
      rw [hm.index, hcount, List.append_nil]
      exact lt_irrefl _
    have halloc : (s.addRef z.1 1).btnodeAlloc env 1 =
        (some s.fresh, ((s.addRef z.1 1).allocated env.uninit 1).addRef s.fresh 1) :=
      btnodeAlloc_granted env (s := s.addRef z.1 1) hg (h.ready.addRef hz.heap).blank 1
    rw [insert_miss env hroot hm.lookup hm.found hp, if_neg (hm.size ▸ hsize)]
    rw [if_neg hlt, if_neg hindex, halloc]
    change (leafInsert _ s.fresh 0 q value).bind _ = _
    rw [hins, Option.bind_some]
  rw [hrun]
  have hone : ∀ v ∈ pre ++ [z] ++ [], ∀ w ∈ pre ++ [z] ++ [], v.1 = w.1 → v = w := by
    rw [List.append_nil]
    exact label_unique (hunder.same (hbelow 1)).keys
  rcases insertNode_takes env hup hone hready ⟨_, hleaf⟩ (hleaf.leafIn.lastKey (z := (q, value)) rfl)
    (Grouped.rising hall hrise) (by omega) (v := z) (by simp) (hreq.same hbelow)
    (hmallocs ▸ hgr) with ⟨hno, hnone⟩ | ⟨hyes, t', above', hlink, hL, -⟩
  · exact Or.inl ⟨fun hT => hno (htakes.mpr hT), by rw [hnone, Option.bind_none]⟩
  · have hstand : Standing t' _ _ above' := hL.standing hall hrise hfit
    obtain ⟨s₁, hrelease₁, hrefs₁, hstand₁⟩ := hstand.release env (s := s.addRef z.1 1)
      (v := (s.fresh, q)) (by simp) (addRef_nonneg h.ready.refs z.1) (hL.refs.trans hrefs)
    obtain ⟨s₂, hrelease₂, hrefs₂, hstand₂⟩ := hstand₁.release env (v := z) (by simp)
      h.ready.refs hrefs₁
    have hgrown : above'.length ≤ above.length + 1 := by
      have := hL.grown
      omega
    refine Or.inr ⟨htakes.mp hyes, s₂, pre ++ [z] ++ [(s.fresh, q)], above', ?_, hrefs₂, ?_, hgrown⟩
    · rw [hlink, Option.bind_some, if_neg (not_not.mpr rfl), hrelease₁, Option.bind_some, hrelease₂,
        Option.bind_some]
    · rw [hitems] at hstand₂
      exact hstand₂

end Btree

end Carthage
