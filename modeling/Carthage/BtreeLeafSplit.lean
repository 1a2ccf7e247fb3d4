import Carthage.BtreeInsert

/-!
# Splitting a leaf for a key

`__btree_leaf_split_insert`: the upper half of a leaf goes to a new leaf, which is linked
behind it, and the key goes to one of the halves.
-/

namespace Carthage

namespace Btree

variable {K D : Type} {s s' t : Btree K D} {x : ℕ} {q : K} {value : List UInt8}
  {L A B C C' I I₁ I₂ : List (K × List UInt8)} {xs pre post : List (ℕ × K)}
  {above above' : List (List (ℕ × K))} {z : ℕ × K} {w : K × List UInt8} {place place' : Place}

/-! ## The halves -/

/-- What allocation and split leave of a leaf. -/
structure LeafHalves (s t : Btree K D) (x : ℕ) (I₁ I₂ : List (K × List UInt8)) : Prop where
  left : LeafAt t x I₁
  right : LeafAt t s.fresh I₂
  others : ∀ v J, v ≠ x → LeafAt s v J → LeafAt t v J
  twigs : ∀ (E : Prop) y l cs, TwigAt E s y l cs → TwigAt E t y l cs
  config : t.config = s.config
  refs : t.refs = ((s.addRef x 1).addRef s.fresh 1).refs
  height : t.super.height = s.super.height
  root : t.root = s.root
  ready : Ready t
  mallocs : t.mallocs = s.mallocs + 2

theorem splitLeaf_spec (uninit : Bytes) (hr : Ready s) (hx : LeafAt s x (I₁ ++ I₂))
    (hhalf : I₁.length = (I₁ ++ I₂).length / 2) (hitem : I₁ ++ I₂ ≠ []) :
    ∃ t, (((s.addRef x 1).allocated uninit 1).addRef s.fresh 1).leafSplit x s.fresh = some t ∧
      LeafHalves s t x I₁ I₂ := by
  have hheap := hx.resident.heap
  have hne : x ≠ s.fresh := hr.blank.ne_fresh hheap
  have hsize : 16 ≤ s.super.blockSize := by
    have := hr.created.large
    omega
  let t₁ := ((s.addRef x 1).allocated uninit 1).addRef s.fresh 1
  have hbelow : ∀ l, SameBelow l s t₁ := fun l => hr.allocates hheap uninit l
  have hleaves : ∀ v J, LeafAt s v J → LeafAt t₁ v J := fun v J hv => (hbelow 1).leafAt le_rfl hv
  have hnew : LeafIn t₁ s.fresh [] := (leafIn_allocated hsize).frame rfl rfl
  have hb : t₁.super.blockSize < 2 ^ 32 := hr.created.blockSize
  obtain ⟨t, hsplit, htouch, hleft, hright⟩ :=
    leafSplit_spec (hleaves x _ hx).leafIn hnew hne hb hhalf hitem
  refine ⟨t, hsplit, hleft, hright, fun v J hv hJ => htouch.leafAt ?_ (hleaves v J hJ),
    fun E y l cs hc => ?_, htouch.config, htouch.refs, htouch.height, htouch.root,
    htouch.ready ((hr.addRef hheap).alloc uninit 1), htouch.mallocs⟩
  · have hfresh : v ≠ s.fresh := hr.blank.ne_fresh hJ.resident.heap
    simp [hv, hfresh]
  · have hfresh : y ≠ s.fresh := hr.blank.ne_fresh hc.resident.heap
    have hyx : y ≠ x := by
      rintro rfl
      exact hx.not_twig hc
    have hc₁ : TwigAt E t₁ y l cs := (hbelow l).twigAt le_rfl hc
    exact hc₁.frame htouch.config (htouch.others y (by simp [hyx, hfresh]))

theorem LeafIn.lastKey_nil (h : LeafIn s x []) : s.lastKey x = none := by
  obtain ⟨page, hp, hk⟩ := h.keys
  simp only [Btree.lastKey, hp, Option.bind_eq_bind, Option.bind_some, hk, List.map_nil,
    List.getLast?_nil]

variable [LinearOrder K] (env : BtreeEnv K D)

/-- What lowering the separator of a split leaf leaves: `all` are the leaves, and `linked` are those
with a separator. -/
structure Relabelled (s t t' : Btree K D) (L : List (K × List UInt8)) (all linked : List (ℕ × K))
    (old new : K) (above above' : List (List (ℕ × K))) : Prop where
  ready : Ready t'
  refs : t'.refs = t.refs
  mallocs : t'.mallocs = t.mallocs
  leaves : Leaves t' L all
  upper : Upper t' 1 linked above'
  length : above'.length = above.length
  below : SameBelow 1 t t'
  takes : ∀ v, Takes t' 1 above' v ↔ Takes s 1 above v
  requests : ∀ v r, LinkRequests s 1 (names above) v r → LinkRequests t' 1 (names above') v r
  renames : Renames True s t' old new 1 above

namespace LeafHalves

theorem leaves (ht : LeafHalves s t z.1 I₁ I₂) (h : Standing s L xs above)
    (hz : LeafFor s L xs q pre z post A (I₁ ++ I₂) B) (hw : I₁.getLast? = some w)
    (hne : I₂ ≠ []) : Leaves t L (pre ++ (z.1, w.1) :: (s.fresh, z.2) :: post) := by
  have hothers : ∀ v ∈ pre ++ post, ∀ J, LeafAt s v.1 J → LeafAt t v.1 J :=
    fun v hv J hJ => ht.others v.1 J (hz.ne h.leaves h.rising v hv) hJ
  have hpre : Leaves t A pre := hz.left.mono fun v hv => hothers v (List.mem_append_left post hv)
  have hpost : Leaves t B post :=
    hz.right.mono fun v hv => hothers v (List.mem_append_right pre hv)
  obtain ⟨u, hu, huz⟩ := hz.last
  rw [List.getLast?_append_of_ne_nil _ hne] at hu
  have hleft : Leaves t I₁ [(z.1, w.1)] :=
    Grouped.single (P := fun y items => LeafAt t y items) ht.left hw
  have hright : Leaves t I₂ [(s.fresh, z.2)] :=
    huz ▸ Grouped.single (P := fun y items => LeafAt t y items) ht.right hu
  have hall := (hpre.append (hleft.append hright)).append hpost
  have hlist : pre ++ ([(z.1, w.1)] ++ [(s.fresh, z.2)]) ++ post =
      pre ++ (z.1, w.1) :: (s.fresh, z.2) :: post := by simp
  rw [hlist] at hall
  rw [hz.items]
  exact hall

theorem lower (ht : LeafHalves s t z.1 I₁ I₂) (h : Standing s L xs above)
    (hz : LeafFor s L xs q pre z post A (I₁ ++ I₂) B) (hw : I₁.getLast? = some w)
    (hne : I₂ ≠ []) :
    ∃ t' above', t.btreeTwigsUpdate env z.1 z.2 (some w.1) = some t' ∧
      Relabelled s t t' L (pre ++ (z.1, w.1) :: (s.fresh, z.2) :: post)
        (pre ++ (z.1, w.1) :: post) z.2 w.1 above above' := by
  have hall : Under t L [] _ := ht.leaves h hz hw hne
  have hsub : ∀ v ∈ pre ++ (z.1, w.1) :: post,
      v ∈ pre ++ (z.1, w.1) :: (s.fresh, z.2) :: post := by
    intro v hv
    rcases List.mem_append.mp hv with hv | hv
    · exact List.mem_append_left _ hv
    · refine List.mem_append_right _ ?_
      rcases List.mem_cons.mp hv with rfl | hv <;> simp [*]
  have hrooted : ∀ v ∈ xs, Rooted t 1 v.1 := by
    rw [hz.locates.split]
    refine forall_mem_middle (fun v hv => hall.rooted v (hsub v ?_)) ⟨I₁, ht.left⟩
    rcases List.mem_append.mp hv with hv | hv <;> simp [hv]
  have hindex : Index True t 1 xs above :=
    h.index.mono ht.root fun y l cs _ hc => ht.twigs True y l cs hc
  obtain ⟨page, hp, hpl, -⟩ := ht.left.page_items
  have hlevels := h.levels
  obtain ⟨t', hupdate, hre, hi, hrenames⟩ := btreeTwigsUpdate_spec env hindex h.upper.rising le_rfl
    hrooted (by omega) ht.ready.refs hp hpl (.inl rfl : some w.1 = some w.1 ∨ ∀ v ∈ xs, v.2 ≠ z.2)
  have hall' := hall.same hre.sameBelow
  have hlabel : xs.map (rename z.2 w.1) = pre ++ (z.1, w.1) :: post := by
    have hrising := h.upper.rising
    rw [hz.locates.split] at hrising ⊢
    exact rename_label hrising w.1
  rw [hlabel] at hi
  have hsublist : (pre ++ (z.1, w.1) :: post).Sublist
      (pre ++ (z.1, w.1) :: (s.fresh, z.2) :: post) :=
    ((List.sublist_cons_self _ post).cons_cons _).append_left pre
  have hrenamed : Renames True s t' z.2 w.1 1 above :=
    EachTwig.imp hrenames fun l y _ hmap cs hc => hmap cs (ht.twigs True y l cs hc)
  refine ⟨t', _, hupdate, ht.ready.retwig hre, hre.refs, hre.mallocs, hall', ⟨hi, ?_, ?_, ?_, ?_⟩,
    List.length_map _, hre.sameBelow, fun v => ?_, fun v r hreq => ?_, hrenamed⟩
  · exact (hall'.rising h.rising).sublist hsublist
  · exact fun v hv => hall'.rooted v (hsub v hv)
  · exact fun _ v hv => hall'.keys v (hsub v hv)
  · rw [hre.super, ht.height, h.height, List.length_map]
  · refine takes_congr h.index ?_ (fun y l cs hc => ?_) z.2 w.1
    · exact (congrArg SuperBlock.toGeometry hre.super).trans (congrArg Config.geometry ht.config)
    · exact hre.names y l cs (ht.twigs False y l cs hc)
  · rw [names_rename]
    refine hreq.transfer ?_ (EachTwig.imp hrenamed fun l y _ hmap cs hc => ⟨_, hmap cs hc, ?_⟩)
    · exact (congrArg SuperBlock.toGeometry hre.super).trans (congrArg Config.geometry ht.config)
    · rw [List.map_map]
      rfl

end LeafHalves

/-! ## The key -/

/-- The rest of `__btree_leaf_split_insert` once the upper half is linked. -/
def leafSplitPut (s : Btree K D) (left right : ℕ) (key : K) (value : List UInt8) :
    Option (ℤ × Btree K D) := do
  let needed := s.super.itemNeeded value.length % 2 ^ 32
  let first ← s.firstKey right
  let target := if key < first then left else right
  let page ← s.page target
  if page.free < needed then
    match s.btnodeAlloc env 1 with
    | (none, s) =>
        let s ← s.btnodeRelease env right
        return (3, s)
    | (some target, s) =>
        let s ← s.btreeTwigsInsertUpdate env target 0 key
        let s ← s.leafInsert target 0 key value
        let (rc, s) ← btreeInsertNode env maxLevels s target
        if rc ≠ 0 then
          let s ← s.btnodeRelease env right
          let s ← s.btnodeFree env target
          return (4, s)
        let s ← s.btnodeRelease env right
        return (0, s)
  else
    let leaf ← page.leaf?
    let (_, index) ← leaf.search key
    let s ← s.btreeTwigsInsertUpdate env target 0 key
    let s ← s.leafInsert target index key value
    let s ← s.btnodeRelease env right
    return (0, s)

theorem leafSplitInsert_eq {left right : ℕ} {s₁ : Btree K D} {last : K}
    (halloc : s.btnodeAlloc env 1 = (some right, s₁)) (hsplit : s₁.leafSplit left right = some t)
    (hlast : t.lastKey right = some last) (key : K) (value : List UInt8) :
    s.btreeLeafSplitInsert env left key value =
      (t.btreeTwigsUpdate env left last (t.lastKey left)).bind fun t₁ =>
        (btreeInsertNode env maxLevels t₁ right).bind fun r =>
          if r.1 ≠ 0 then (r.2.leafMerge left right).bind fun t₂ =>
            (t₂.btnodeFree env right).bind fun t₃ => some (2, t₃)
          else r.2.leafSplitPut env left right key value := by
  rw [btreeLeafSplitInsert, halloc]
  change (s₁.leafSplit left right).bind _ = _
  rw [hsplit, Option.bind_some]
  change (t.lastKey right).bind _ = _
  rw [hlast, Option.bind_some]
  rfl

/-- The leaf is cut in two before anything is linked. -/
theorem leafSplitInsert_cuts (hg : NodeGranted env s.mallocs) (h : Standing s L xs above)
    (hz : LeafFor s L xs q pre z post A (I₁ ++ I₂) B)
    (hhalf : I₁.length = (I₁ ++ I₂).length / 2) (hne : I₂ ≠ []) (value : List UInt8) :
    ∃ t, LeafHalves s t z.1 I₁ I₂ ∧ t.lastKey s.fresh = some z.2 ∧
      (s.addRef z.1 1).btreeLeafSplitInsert env z.1 q value =
        (t.btreeTwigsUpdate env z.1 z.2 (t.lastKey z.1)).bind fun t₁ =>
          (btreeInsertNode env maxLevels t₁ s.fresh).bind fun r =>
            if r.1 ≠ 0 then (r.2.leafMerge z.1 s.fresh).bind fun t₂ =>
              (t₂.btnodeFree env s.fresh).bind fun t₃ => some (2, t₃)
            else r.2.leafSplitPut env z.1 s.fresh q value := by
  obtain ⟨t, hsplit, ht⟩ := splitLeaf_spec env.uninit h.ready hz.leaf hhalf (by simp [hne])
  have halloc : (s.addRef z.1 1).btnodeAlloc env 1 =
      (some s.fresh, ((s.addRef z.1 1).allocated env.uninit 1).addRef s.fresh 1) :=
    btnodeAlloc_granted env (s := s.addRef z.1 1) hg (h.ready.addRef hz.leaf.resident.heap).blank 1
  obtain ⟨v, hv, hvz⟩ := hz.last
  rw [List.getLast?_append_of_ne_nil _ hne] at hv
  have hlast : t.lastKey s.fresh = some z.2 := hvz ▸ ht.right.leafIn.lastKey hv
  exact ⟨t, ht, hlast, leafSplitInsert_eq env halloc hsplit hlast q value⟩

theorem leafSplitPut_eq {y f v : ℕ} {u : K × List UInt8}
    (hr : Ready s) (hf : LeafAt s f I₂) (hu : I₂.head? = some u)
    (hv : (if q < u.1 then y else f) = v) (hT : LeafAt s v I) (hs : Rising Prod.fst I)
    {page : Page K} (hp : s.page v = some page)
    (hg : page.free < s.super.itemNeeded value.length % 2 ^ 32 → NodeGranted env s.mallocs) :
    s.leafSplitPut env y f q value =
      if s.super.itemNeeded value.length % 2 ^ 32 ≤ page.free then
        (s.btreeTwigsInsertUpdate env v 0 q).bind fun s₁ =>
          (s₁.leafInsert v (rank (I.map Prod.fst) q) q value).bind fun s₂ =>
            (s₂.btnodeRelease env f).bind fun s₃ => some (0, s₃)
      else none := by
  obtain ⟨I₂, rfl⟩ := List.head?_eq_some_iff.mp hu
  have hfirst : s.firstKey f = some u.1 := hf.leafIn.firstKey
  obtain ⟨crc, leaf, hpleaf, hpacked⟩ := hT.page
  obtain rfl := Option.some.inj (hpleaf.symm.trans hp)
  unfold leafSplitPut
  rw [hfirst]
  change (s.page (if q < u.1 then y else f)).bind _ = _
  rw [hv, hp, Option.bind_some]
  by_cases hroom : s.super.itemNeeded value.length % 2 ^ 32 ≤ Page.free ⟨crc, 1, .leaf leaf⟩
  · rw [if_neg (not_lt.mpr hroom), if_pos hroom]
    have hsearch : leaf.search q = some (decide (q ∈ I.map Prod.fst), rank (I.map Prod.fst) q) := by
      rw [LeafPage.search, hpacked.keys, indexSearch_spec (rising_map.mp hs)]
    change (leaf.search q).bind _ = _
    rw [hsearch, Option.bind_some]
    rfl
  · rw [if_pos (not_le.mp hroom), if_neg hroom,
      btnodeAlloc_granted env (hg (not_le.mp hroom)) hr.blank]
    have hsize : 16 ≤ s.super.blockSize := by
      have := hr.created.large
      omega
    have hnew : LeafIn ((s.allocated env.uninit 1).addRef s.fresh 1) s.fresh [] :=
      (leafIn_allocated hsize).frame rfl rfl
    have hnone : ((s.allocated env.uninit 1).addRef s.fresh 1).btreeTwigsInsertUpdate env s.fresh 0
        q = none := by
      unfold btreeTwigsInsertUpdate
      rw [hnew.lastKey_nil]
      rfl
    change (btreeTwigsInsertUpdate env _ s.fresh 0 q).bind _ = _
    rw [hnone, Option.bind_none]

theorem Standing.put_half {pre post : List (ℕ × K)} {v : ℕ × K} (h : Standing s L xs above)
    (hloc : Locates xs q pre v post) (hT : LeafAt s v.1 I) (hq : q ∉ L.map Prod.fst)
    (hlt : q < v.2) {page : Page K} (hp : s.page v.1 = some page)
    (hroom : s.super.itemNeeded value.length ≤ page.free) :
    ∃ s₁ s₂ L' xs' above', s.btreeTwigsInsertUpdate env v.1 0 q = some s₁ ∧
      s₁.leafInsert v.1 (rank (I.map Prod.fst) q) q value = some s₂ ∧ Standing s₂ L' xs' above' ∧
      L'.Perm ((q, value) :: L) ∧ s₂.refs = s.refs ∧ ∀ a ∈ xs, ∃ m, (a.1, m) ∈ xs' := by
  obtain ⟨A, B, hfor⟩ := leafFor_of_locates h.leaves h.rising hloc hT
  obtain ⟨C, C', rfl, hrank, hbefore, hbehind, -⟩ := hfor.cut hq
  have hC' : C' ≠ [] := by
    rintro rfl
    obtain ⟨w, hw, hwv⟩ := hfor.last
    rw [List.append_nil] at hw
    have hwq := hbefore w (List.mem_append_right A (List.mem_of_getLast? hw))
    rw [hwv] at hwq
    exact lt_asymm hlt hwq
  have hiff : 0 = (C ++ C').length ↔ C' = [] := by
    refine ⟨fun h0 => ?_, fun h0 => absurd h0 hC'⟩
    exact (List.append_eq_nil_iff.mp (List.length_eq_zero_iff.mp h0.symm)).2
  obtain ⟨s₁, s₂, m, above', hupdate, hins, hstand, hrefs, -⟩ :=
    h.put env hfor hbefore hbehind hp hroom 0 hiff
  refine ⟨s₁, s₂, _, _, above', hupdate, hrank ▸ hins, hstand, ?_, hrefs, fun a ha => ?_⟩
  · rw [hfor.items]
    have hmid : (A ++ C ++ (q, value) :: (C' ++ B)).Perm ((q, value) :: (A ++ C ++ (C' ++ B))) :=
      List.perm_middle
    simpa using hmid
  · rw [hloc.split] at ha
    rcases List.mem_append.mp ha with ha | ha
    · exact ⟨a.2, List.mem_append_left _ ha⟩
    · rcases List.mem_cons.mp ha with rfl | ha
      · exact ⟨m, by simp⟩
      · exact ⟨a.2, by simp [ha]⟩

theorem put_between {y : ℕ} (h : Upper s 1 xs above) (hr : Ready s)
    (hfit : above.length + 1 < 2 ^ 8) (hy : LeafAt s y I) (hw : I.getLast? = some w)
    {page : Page K} (hp : s.page y = some page)
    (hroom : s.super.itemNeeded value.length ≤ page.free) :
    ∃ s₁ s₂, s.btreeTwigsInsertUpdate env y 0 q = some s₁ ∧
      s₁.leafInsert y I.length q value = some s₂ ∧ Put s s₂ y (I ++ [(q, value)]) xs above := by
  rw [← List.append_nil I] at hy hw
  obtain ⟨s₁, s₂, hupdate, hins, hput⟩ := leafPut_spec env (q := q) h hr hfit hy hw hp hroom 0
  have hne : 0 ≠ (I ++ []).length := by
    intro h0
    rw [List.length_eq_zero_iff.mp h0.symm] at hw
    cases hw
  rw [if_neg hne, map_rename_self] at hput
  have hself : above.map (List.map (rename w.1 w.1)) = above :=
    (List.map_congr_left fun ys _ => map_rename_self w.1).trans (List.map_id _)
  rw [hself] at hput
  exact ⟨s₁, s₂, hupdate, hins, hput⟩

theorem Index.search_fails {v : ℕ × K} (h : Index True s 1 xs above) (hxs : Rising Prod.snd xs)
    (hleaf : ∀ z ∈ xs, ∃ I, LeafAt s z.1 I ∧ Rising Prod.fst I) (hfit : above.length + 1 < 2 ^ 8)
    (hr : 0 ≤ s.refs) (hloc : Locates xs q pre v post) (hI : LeafAt s v.1 I)
    (hq : q ∉ I.map Prod.fst) (place : Place) : ∃ x place' t,
      s.btreeLookupLevel env q 1 place = some (x, place', t) ∧ place'.found = false := by
  obtain ⟨pre', z, post', J, place', hloc', hJ, -, -, hfound, -, -, hlook⟩ :=
    h.search env hxs hleaf hfit hr q place
  obtain ⟨-, rfl, -⟩ := hloc.unique hloc'
  obtain rfl := hI.unique hJ
  exact ⟨_, place', _, hlook, hfound.trans (decide_eq_false hq)⟩

theorem Standing.finds (h : Standing s L xs above) (hq : q ∈ L.map Prod.fst) (place : Place) :
    ∃ x place' t, s.btreeLookupLevel env q 1 place = some (x, place', t) ∧
      place'.found = true := by
  obtain ⟨pre, z, post, A, I, B, place', hfor, -, hfound, -, -, hlook⟩ := h.search env q place
  exact ⟨_, place', _, hlook, hfound.trans (decide_eq_true (hfor.key_mem_iff.mp hq))⟩

/-- A search in memory finds the key, and a lookup copies its value. -/
def Reads (s : Btree K D) (k : K) (v : List UInt8) : Prop :=
  (∃ x place t, s.btreeLookupLevel env k 1 noPlace = some (x, place, t) ∧ place.found = true) ∧
    ∀ size, s.btreeLookup env k size = some (v.take size, s)

theorem Index.reads {z : ℕ × K} {k : K} {v : List UInt8} (h : Index True s 1 xs above)
    (hxs : Rising Prod.snd xs) (hleaf : ∀ z ∈ xs, ∃ I, LeafAt s z.1 I ∧ Rising Prod.fst I)
    (hfit : above.length + 1 < 2 ^ 8) (hr : 0 ≤ s.refs) (hloc : Locates xs k pre z post)
    (hI : LeafAt s z.1 I) (hmem : (k, v) ∈ I) : Reads env s k v := by
  constructor
  · obtain ⟨P, z', Q, J, place, hloc', hJ, -, -, hfound, -, -, hlook⟩ :=
      h.search env hxs hleaf hfit hr k noPlace
    obtain ⟨-, rfl, -⟩ := hloc.unique hloc'
    obtain rfl := hI.unique hJ
    exact ⟨_, place, _, hlook, hfound.trans (decide_eq_true (List.mem_map_of_mem (f := Prod.fst) hmem))⟩
  · intro size
    obtain ⟨P, z', Q, J, hloc', hJ, hrise, hrun⟩ := h.lookup env hxs hleaf hfit hr k size
    obtain ⟨-, rfl, -⟩ := hloc.unique hloc'
    obtain rfl := hI.unique hJ
    rw [hrun, lookup_of_mem hrise hmem, Option.getD_some]

theorem Standing.reads (h : Standing s L xs above) {k : K} {v : List UInt8} (hmem : (k, v) ∈ L) :
    Reads env s k v := by
  refine ⟨h.finds env (List.mem_map_of_mem (f := Prod.fst) hmem) noPlace, fun size => ?_⟩
  rw [h.lookup env k size, lookup_of_mem h.rising hmem, Option.getD_some]

/-! ## A leaf with one item -/

theorem twigsUpdate_empty (h : Index True s 1 xs above) (hxs : Rising Prod.snd xs)
    (hfit : above.length + 1 < 2 ^ 8) (hr : 0 ≤ s.refs) (hz : z ∈ xs) (hne : above ≠ [])
    {page : Page K} (hp : s.page x = some page) (hpl : page.level = 1) :
    s.btreeTwigsUpdate env x z.2 none = none := by
  obtain ⟨ys, above, rfl⟩ := List.ne_nil_iff_exists_cons.mp hne
  rw [List.length_cons] at hfit
  obtain ⟨U, u, V, cs, w, place, hloc, hc, -, -, hcs, hidx, hfound, hlook⟩ :=
    h.lookup_twig env hxs le_rfl (by omega) hr z.2 noPlace
  have hmem : z.2 ∈ cs.map Prod.snd :=
    List.mem_map_of_mem (located_holds hloc h.1 hxs hc hz rfl)
  obtain ⟨node, -, hset, -⟩ :=
    setToUpdate_twig (hc.frame rfl rfl : TwigAt True (s.addRef u.1 1) u.1 (1 + 1) cs)
  have hfuel : maxLevels = (maxLevels - 1) + 1 := rfl
  unfold btreeTwigsUpdate
  rw [hp, hfuel]
  change twigsUpdateLoop env z.2 none (maxLevels - 1 + 1) page.level s = none
  rw [hpl, twigsUpdateLoop]
  simp only [hlook, hset, hfound, decide_eq_true hmem, Page.twig?, Option.bind_eq_bind, Option.bind_some,
    Option.bind_none, if_true, Option.bind_fun_none]

theorem insertNode_over_root {y f n : ℕ} {k : K} {J : List (K × List UInt8)}
    (hroot : s.root = some y) (hy : LeafAt s y J) (hr : 0 ≤ s.refs) (hf : LeafAt s f I)
    (hk : s.lastKey f = some k) : btreeInsertNode env (n + 1) s f = (s.btreeGrow env).bind fun r =>
      r.1.elim (some ((1 : ℤ), r.2)) fun twig =>
        (r.2.twigIndex twig k).bind fun i => (r.2.twigInsertChild twig i k f).bind
          fun s₁ => (s₁.btnodeRelease env twig).bind fun s₂ => some (0, s₂) := by
  obtain ⟨page, hp, hpl, -⟩ := hf.page_items
  have hyroot : Rooted s 1 y := ⟨J, hy⟩
  obtain ⟨place, hlook⟩ := lookup_above env hroot hyroot (by decide) Nat.one_lt_two hr k noPlace
  rw [btreeInsertNode]
  change (s.lastKey f).bind _ = _
  rw [hk, Option.bind_some]
  change (s.page f).bind _ = _
  rw [hp, Option.bind_some, hpl]
  change (s.btreeLookupLevel env k (1 + 1) noPlace).bind _ = _
  rw [hlook, Option.bind_some]
  change (s.btreeGrow env).bind _ = _
  congr 1
  funext r
  obtain ⟨_ | twig, s₁⟩ := r
  · rfl
  · rfl

theorem insertNode_empty_root {y f n : ℕ} {k : K} (hg : NodeGranted env s.mallocs) (hr : Ready s)
    (hroot : s.root = some y) (hy : LeafAt s y []) (hh : 1 < s.super.height) (hf : LeafAt s f I)
    (hk : s.lastKey f = some k) : btreeInsertNode env (n + 1) s f = none := by
  let t := (s.allocated env.uninit s.super.height).addRef s.fresh 1
  have hyt : LeafAt t y [] := ((SameBelow.allocated hr.blank).addRef _ _).leafAt le_rfl hy
  have hfetch : t.btreeFetchRoot env = some (some y, t.addRef y 1) :=
    btreeFetchRoot_resident env hroot hyt.resident
  have hyt' : LeafIn (t.addRef y 1) y [] := hyt.leafIn.frame rfl rfl
  have hgrow : s.btreeGrow env = none := by
    rw [btreeGrow]
    simp only [btnodeAlloc_granted env hg hr.blank, if_pos hh, Option.bind_eq_bind]
    change (t.btreeFetchRoot env).bind _ = none
    rw [hfetch]
    change ((t.addRef y 1).lastKey y).bind _ = none
    rw [hyt'.lastKey_nil, Option.bind_none]
  rw [insertNode_over_root env hroot hy hr.refs hf hk, hgrow, Option.bind_none]

theorem twigsUpdate_root {y : ℕ} {k : K} (hroot : s.root = some y) (hr : 0 ≤ s.refs)
    (hy : LeafAt s y I) (key : Option K) : s.btreeTwigsUpdate env y k key = some s := by
  obtain ⟨page, hp, hpl, -⟩ := hy.page_items
  have hyroot : Rooted s 1 y := ⟨I, hy⟩
  obtain ⟨place, hlook⟩ := lookup_above env hroot hyroot (by decide) Nat.one_lt_two hr k noPlace
  have hfuel : maxLevels = (maxLevels - 1) + 1 := rfl
  unfold btreeTwigsUpdate
  rw [hp, hfuel]
  change twigsUpdateLoop env k key (maxLevels - 1 + 1) page.level s = some s
  rw [hpl, twigsUpdateLoop, hlook]
  rfl

theorem LeafHalves.single (ht : LeafHalves s t z.1 [] I) (h : Standing s L xs above)
    (hz : LeafFor s L xs q pre z post A I B) (hg : above = [] → NodeGranted env t.mallocs) :
    (t.btreeTwigsUpdate env z.1 z.2 (t.lastKey z.1)).bind
      (fun t₁ => btreeInsertNode env maxLevels t₁ s.fresh) = none := by
  obtain ⟨page, hp, hpl, -⟩ := ht.left.page_items
  have hindex : Index True t 1 xs above :=
    h.index.mono ht.root fun y l cs _ hc => ht.twigs True y l cs hc
  have hmem : z ∈ xs := by simp [hz.locates.split]
  rw [ht.left.leafIn.lastKey_nil]
  by_cases hne : above = []
  · subst hne
    obtain ⟨z', rfl, hroot⟩ := hindex
    obtain rfl := List.mem_singleton.mp hmem
    have hfuel : maxLevels = (maxLevels - 1) + 1 := rfl
    obtain ⟨w, hw, -⟩ := hz.last
    have hh : 1 < t.super.height := by
      rw [ht.height, h.height, List.length_nil]
      decide
    rw [twigsUpdate_root env hroot ht.ready.refs ht.left, Option.bind_some, hfuel]
    exact insertNode_empty_root env (hg rfl) ht.ready hroot ht.left hh ht.right
      (ht.right.leafIn.lastKey hw)
  · rw [twigsUpdate_empty env hindex h.upper.rising h.levels ht.ready.refs hmem hne hp hpl,
      Option.bind_none]

end Btree

end Carthage
