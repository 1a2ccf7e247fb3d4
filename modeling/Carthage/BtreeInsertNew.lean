import Carthage.BtreeLeafSplit

/-!
# Inserting a key that is not in the tree

`btree_insert` leaves a well-formed tree with the item added exactly when the leaf where the
key belongs accepts it: the item fits in, or it goes behind all others, or to a half of the
leaf that has room and does not end before the key.
-/

namespace Carthage

namespace Geometry

variable {K : Type} (g : Geometry)

/-- A leaf with the items has room for another one. -/
def Fits (I : List (K × List UInt8)) (value : List UInt8) : Prop :=
  (I.map fun x => g.itemNeeded x.2.length).sum + g.itemNeeded value.length ≤ g.nodeSpace

/-- The same with 32 bits of the size of the item, which is what `btree_insert` compares. -/
def Room (I : List (K × List UInt8)) (value : List UInt8) : Prop :=
  (I.map fun x => g.itemNeeded x.2.length).sum + g.itemNeeded value.length % 2 ^ 32 ≤ g.nodeSpace

theorem sum_itemNeeded (I : List (K × List UInt8)) :
    (I.map fun x => g.itemNeeded x.2.length).sum = I.length * g.itemSize + LeafPage.bodies I := by
  induction I with
  | nil => simp
  | cons x I ih =>
      rw [List.map_cons, List.sum_cons, ih, LeafPage.bodies_cons, List.length_cons, Nat.add_mul,
        itemNeeded, itemSize]
      omega

variable [LinearOrder K] {I₁ I₂ : List (K × List UInt8)} {q : K} {value : List UInt8}

def HalvesTake (I₁ I₂ : List (K × List UInt8)) (q : K) (value : List UInt8) : Prop :=
  I₁ ≠ [] ∧ ((∃ x ∈ I₁, q < x.1) ∧ g.Fits I₁ value ∨ (∃ x ∈ I₂, x.1 < q) ∧ g.Fits I₂ value)

def HalvesPart (I₁ I₂ : List (K × List UInt8)) (q : K) (value : List UInt8) : Prop :=
  I₁ ≠ [] ∧ (∀ x ∈ I₁, x.1 < q) ∧ (∀ x ∈ I₂, q < x.1) ∧ g.Fits I₁ value

def Splits (I : List (K × List UInt8)) (q : K) (value : List UInt8) : Prop :=
  g.HalvesTake (I.take (I.length / 2)) (I.drop (I.length / 2)) q value

def Parts (I : List (K × List UInt8)) (q : K) (value : List UInt8) : Prop :=
  g.HalvesPart (I.take (I.length / 2)) (I.drop (I.length / 2)) q value

/-- The half of the items to which a key goes. -/
def halfFor (I : List (K × List UInt8)) (q : K) : List (K × List UInt8) :=
  (I.drop (I.length / 2)).head?.elim (I.take (I.length / 2)) fun u =>
    if q < u.1 then I.take (I.length / 2) else I.drop (I.length / 2)

theorem halfFor_eq {I : List (K × List UInt8)} {u : K × List UInt8}
    (hu : (I.drop (I.length / 2)).head? = some u) (q : K) :
    halfFor I q = if q < u.1 then I.take (I.length / 2) else I.drop (I.length / 2) := by
  rw [halfFor, hu, Option.elim_some]

variable {g} in
theorem HalvesPart.not_take (h : g.HalvesPart I₁ I₂ q value) : ¬ g.HalvesTake I₁ I₂ q value := by
  rintro ⟨-, ⟨⟨x, hx, hqx⟩, -⟩ | ⟨⟨x, hx, hxq⟩, -⟩⟩
  · exact lt_asymm hqx (h.2.1 x hx)
  · exact lt_asymm hxq (h.2.2.1 x hx)

variable {g} in
theorem Parts.not_all {I : List (K × List UInt8)} (h : g.Parts I q value) :
    ¬ ∀ x ∈ I, x.1 < q := by
  intro hall
  cases hdrop : I.drop (I.length / 2) with
  | nil =>
      apply h.1
      rw [List.drop_eq_nil_iff] at hdrop
      rw [List.take_eq_nil_iff]
      omega
  | cons x J =>
      have hx : x ∈ I.drop (I.length / 2) := hdrop ▸ List.mem_cons_self
      exact lt_asymm (h.2.2.1 x hx) (hall x (List.mem_of_mem_drop hx))

instance (I : List (K × List UInt8)) (value : List UInt8) : Decidable (g.Fits I value) :=
  inferInstanceAs (Decidable (_ ≤ _))

instance (I : List (K × List UInt8)) (q : K) (value : List UInt8) :
    Decidable (g.Splits I q value) := inferInstanceAs (Decidable (_ ∧ _))

end Geometry

namespace Btree

variable {K D : Type} {s s' t t' : Btree K D} {x : ℕ} {q : K} {value : List UInt8}
  {L A B C C' I I₁ I₂ : List (K × List UInt8)} {xs pre post : List (ℕ × K)}
  {above above' : List (List (ℕ × K))} {z : ℕ × K} {w u : K × List UInt8} {place place' : Place}

theorem Ready.needed (h : Ready s)
    (hlarge : s.super.itemNeeded value.length ≤ s.super.nodeSpace) :
    s.super.itemNeeded value.length % 2 ^ 32 = s.super.itemNeeded value.length :=
  Nat.mod_eq_of_lt (hlarge.trans_lt ((Nat.sub_le _ _).trans_lt h.created.blockSize))

theorem LeafIn.room_iff (h : LeafIn s x I) {page : Page K} (hp : s.page x = some page)
    (value : List UInt8) :
    s.super.itemNeeded value.length % 2 ^ 32 ≤ page.free ↔ s.super.toGeometry.Room I value := by
  obtain ⟨crc, leaf, hpleaf, hpacked⟩ := h.page
  obtain rfl := Option.some.inj (hpleaf.symm.trans hp)
  have hfree := hpacked.free
  change _ ≤ leaf.free ↔ _
  rw [Geometry.Room, Geometry.sum_itemNeeded, Geometry.nodeSpace]
  rw [Geometry.bodyStart] at hfree
  omega

theorem LeafIn.compares_iff (h : LeafIn s x I) (hc : s.super.toGeometry.Created) {page : Page K}
    (hp : s.page x = some page) (value : List UInt8) :
    page.free % 2 ^ 32 ≥ s.super.itemNeeded value.length % 2 ^ 32 ↔
      s.super.toGeometry.Room I value := by
  obtain ⟨crc, leaf, hpleaf, hpacked⟩ := h.page
  have hfree : leaf.free < 2 ^ 32 := hpacked.free_lt hc.blockSize
  rw [← h.room_iff hp value, Option.some.inj (hp.symm.trans hpleaf)]
  change _ ≤ leaf.free % 2 ^ 32 ↔ _
  rw [Nat.mod_eq_of_lt hfree]
  rfl

theorem Ready.room_iff_fits (h : Ready s)
    (hlarge : s.super.itemNeeded value.length ≤ s.super.nodeSpace) (I : List (K × List UInt8)) :
    s.super.Room I value ↔ s.super.Fits I value := by
  rw [Geometry.Room, h.needed hlarge, Geometry.Fits]

theorem LeafIn.fits_iff (h : LeafIn s x I) (hc : s.super.toGeometry.Created) {page : Page K}
    (hp : s.page x = some page) (value : List UInt8) :
    s.super.itemNeeded value.length ≤ page.free ↔ s.super.toGeometry.Fits I value := by
  obtain ⟨crc, leaf, hpleaf, hpacked⟩ := h.page
  obtain rfl := Option.some.inj (hpleaf.symm.trans hp)
  have hfree := hpacked.free
  have hlarge := hc.large
  change _ ≤ leaf.free ↔ _
  rw [Geometry.Fits, Geometry.sum_itemNeeded, Geometry.nodeSpace]
  rw [Geometry.bodyStart] at hfree
  omega

theorem btreeGrow_first [LinearOrder K] (env : BtreeEnv K D) (hg : NodeGranted env s.mallocs)
    (hr : Ready s)
    (hheight : s.super.height = 1) : ∃ t, s.btreeGrow env = some (some s.fresh, t) ∧
      LeafIn t s.fresh [] ∧ Ready t ∧ t.root = some s.fresh ∧ t.super.height = 2 ∧
      t.refs = (s.addRef s.fresh 1).refs ∧ t.super.toGeometry = s.super.toGeometry := by
  have hsize : 16 ≤ s.super.blockSize := by
    have := hr.created.large
    omega
  let t : Btree K D := { (s.allocated env.uninit 1).addRef s.fresh 1 with
    root := some s.fresh
    super := { (s.allocated env.uninit 1).super with height := (s.super.height + 1) % 2 ^ 8 } }
  have hgrow : s.btreeGrow env = some (some s.fresh, t) := by
    rw [btreeGrow]
    simp only [btnodeAlloc_granted env hg hr.blank, hheight, gt_iff_lt, lt_irrefl, if_false,
      Option.bind_eq_bind, Option.bind_some]
    rfl
  have hnew : LeafIn t s.fresh [] :=
    LeafIn.frame (leafIn_allocated hsize : LeafIn (s.allocated env.uninit 1) s.fresh []) rfl rfl
  have hold := hr.alloc env.uninit 1
  refine ⟨t, hgrow, hnew, ⟨hold.refs, hold.blank, hold.created⟩, rfl, ?_, rfl, rfl⟩
  change (s.super.height + 1) % 2 ^ 8 = 2
  rw [hheight]
  rfl

variable [LinearOrder K] (env : BtreeEnv K D)

/-- The call returns 0 and leaves a well-formed tree with the item added, whose height may be more
than `sb_height` counts, so that lookups find all items. -/
def Adds (s : Btree K D) (L : List (K × List UInt8)) (q : K) (value : List UInt8)
    (place : Place) : Prop :=
  ∃ s' L' xs above, s.btreeInsert env q value place = some (0, s') ∧ s'.refs = s.refs ∧
    L'.Perm ((q, value) :: L) ∧ Standing s' L' xs above ∧
    ∀ k v size, (k, v) ∈ (q, value) :: L → s'.btreeLookup env k size = some (v.take size, s')

theorem Standing.adds (h : Standing s' I xs above) (hI : I.Perm ((q, value) :: L))
    (hr : s'.refs = s.refs) (hrun : s.btreeInsert env q value place = some (0, s')) :
    Adds env s L q value place := by
  refine ⟨s', I, xs, above, hrun, hr, hI, h, fun k v size hmem => ?_⟩
  rw [h.lookup env k size, lookup_of_mem h.rising (hI.mem_iff.mpr hmem), Option.getD_some]

/-- The halves of the leaf `x` of `s`, before the upper one is linked. -/
structure Apart (s t : Btree K D) (x : ℕ) (I₁ I₂ : List (K × List UInt8)) (xs : List (ℕ × K))
    (above : List (List (ℕ × K))) : Prop where
  left : LeafAt t x I₁
  right : LeafAt t s.fresh I₂
  others : ∀ v J, v ≠ x → LeafAt s v J → LeafAt t v J
  index : Index True t 1 xs above
  config : t.config = s.config
  refs : t.refs = ((s.addRef x 1).addRef s.fresh 1).refs
  height : t.super.height = s.super.height
  ready : Ready t

/-- The separators above the lower half of the leaf `z` end at its last key `m`, and the upper half
is to be linked behind it. -/
structure Parting (s t : Btree K D) (L : List (K × List UInt8)) (pre post : List (ℕ × K))
    (z : ℕ × K) (m : K) (I₁ I₂ : List (K × List UInt8)) (above above' : List (List (ℕ × K))) :
    Prop where
  apart : Apart s t z.1 I₁ I₂ (pre ++ [(z.1, m)] ++ post) above'
  upper : Upper t 1 (pre ++ [(z.1, m)] ++ post) above'
  leaves : Leaves t L (pre ++ [(z.1, m)] ++ (s.fresh, z.2) :: post)
  rising : Rising Prod.snd (pre ++ [(z.1, m)] ++ (s.fresh, z.2) :: post)
  one : ∀ v ∈ pre ++ [(z.1, m)] ++ post, ∀ u ∈ pre ++ [(z.1, m)] ++ post, v.1 = u.1 → v = u
  key : t.lastKey s.fresh = some z.2
  mallocs : t.mallocs = s.mallocs + 2
  length : above'.length = above.length
  takes : Takes t 1 above' (post.headD (z.1, m)).1 ↔ Takes s 1 above (post.headD z).1
  requests : ∀ r, LinkRequests s 1 (names above) (post.headD z).1 r →
    LinkRequests t 1 (names above') (post.headD (z.1, m)).1 r

theorem LeafHalves.parting (ht : LeafHalves s t z.1 I₁ I₂) (h : Standing s L xs above)
    (hz : LeafFor s L xs q pre z post A (I₁ ++ I₂) B) (hw : I₁.getLast? = some w) (hne : I₂ ≠ []) :
    ∃ t₁ above₁, t.btreeTwigsUpdate env z.1 z.2 (t.lastKey z.1) = some t₁ ∧
      Parting s t₁ L pre post z w.1 I₁ I₂ above above₁ := by
  obtain ⟨t₁, above₁, hupdate, hlow⟩ := ht.lower env h hz hw hne
  have hlist : pre ++ (z.1, w.1) :: post = pre ++ [(z.1, w.1)] ++ post := by simp
  have hlist' : pre ++ (z.1, w.1) :: (s.fresh, z.2) :: post =
      pre ++ [(z.1, w.1)] ++ (s.fresh, z.2) :: post := by simp
  have hleaves := hlow.leaves
  have hupper := hlow.upper
  rw [hlist'] at hleaves
  rw [hlist] at hupper
  have hunder : Under t₁ L [] _ := hleaves
  have hright : LeafAt t₁ s.fresh I₂ := hlow.below.leafAt le_rfl ht.right
  obtain ⟨v, hv, hvz⟩ := hz.last
  rw [List.getLast?_append_of_ne_nil _ hne] at hv
  refine ⟨t₁, above₁, ht.left.leafIn.lastKey hw ▸ hupdate, ⟨hlow.below.leafAt le_rfl ht.left, hright,
    fun v J hv hJ => hlow.below.leafAt le_rfl (ht.others v J hv hJ), hupper.index,
    hlow.below.config.trans ht.config, hlow.refs.trans ht.refs, ?_, hlow.ready⟩, hupper, hleaves,
    hunder.rising h.rising, ?_, hvz ▸ hright.leafIn.lastKey hv, hlow.mallocs.trans ht.mallocs,
    hlow.length, ?_, fun r hreq => ?_⟩
  · rw [hupper.height, hlow.length, h.height]
  · refine label_unique fun v hv => hunder.keys v ?_
    exact ((List.sublist_cons_self _ post).append_left _).subset hv
  · rw [headD_relabelled]
    exact hlow.takes _
  · rw [headD_relabelled]
    exact hlow.requests _ r hreq

/-- The upper half of the leaf is linked behind the lower half, if there is a slot for it. -/
theorem leafSplitInsert_links {r : ℕ} (hg : NodeGranted env s.mallocs) (h : Standing s L xs above)
    (hreq : LinkRequests s 1 (names above) (post.headD z).1 r)
    (hgr : NodesGranted env (s.mallocs + 2) r) (hfit : above.length + 2 < 2 ^ 8)
    (hz : LeafFor s L xs q pre z post A (I₁ ++ I₂) B)
    (hhalf : I₁.length = (I₁ ++ I₂).length / 2) (hne : I₂ ≠ []) (value : List UInt8) :
    ¬ (Takes s 1 above (post.headD z).1 ∧ I₁ ≠ []) ∧
      (s.addRef z.1 1).btreeLeafSplitInsert env z.1 q value = none ∨
    Takes s 1 above (post.headD z).1 ∧ ∃ w t above', I₁.getLast? = some w ∧
      (s.addRef z.1 1).btreeLeafSplitInsert env z.1 q value =
        t.leafSplitPut env z.1 s.fresh q value ∧
      Standing t L (pre ++ (z.1, w.1) :: (s.fresh, z.2) :: post) above' ∧ LeafAt t z.1 I₁ ∧
      LeafAt t s.fresh I₂ ∧ t.refs = ((s.addRef z.1 1).addRef s.fresh 1).refs ∧
      t.config = s.config ∧ t.mallocs = s.mallocs + 2 + 2 * r := by
  obtain ⟨t, ht, -, hrun⟩ := leafSplitInsert_cuts env hg h hz hhalf hne value
  by_cases hI₁ : I₁ = []
  · subst hI₁
    refine Or.inl ⟨fun hno => hno.2 rfl, ?_⟩
    have hroot : above = [] → NodeGranted env t.mallocs := by
      rintro rfl
      obtain rfl : r = 1 := hreq
      rw [ht.mallocs]
      exact (nodesGranted_succ.mp hgr).1
    rw [hrun, ← Option.bind_assoc, ht.single env h hz hroot, Option.bind_none]
  obtain ⟨w, hw⟩ : ∃ w, I₁.getLast? = some w :=
    Option.isSome_iff_exists.mp (by simpa using hI₁)
  obtain ⟨t₁, above₁, hupdate, hP⟩ := ht.parting env h hz hw hne
  have hlist : pre ++ [(z.1, w.1)] ++ (s.fresh, z.2) :: post =
      pre ++ (z.1, w.1) :: (s.fresh, z.2) :: post := by simp
  have hlength := hP.length
  rw [hrun, hupdate, Option.bind_some]
  rcases insertNode_takes env hP.upper hP.one hP.apart.ready ⟨I₂, hP.apart.right⟩ hP.key hP.rising
    (by omega) (neighbour_headD _ _ _) (hP.requests r hreq) (hP.mallocs ▸ hgr) with
    ⟨hno, hnone⟩ | ⟨hyes, t₂, above₂, hlink, hL, hmallocs⟩
  · refine Or.inl ⟨fun hT => hno (hP.takes.mpr hT.1), ?_⟩
    rw [hnone, Option.bind_none]
  · refine Or.inr ⟨hP.takes.mp hyes, w, t₂, above₂, hw, ?_,
      hlist ▸ hL.standing hP.leaves h.rising (by omega), hL.below.leafAt le_rfl hP.apart.left,
      hL.below.leafAt le_rfl hP.apart.right, hL.refs.trans hP.apart.refs,
      hL.below.config.trans hP.apart.config, hP.mallocs ▸ hmallocs⟩
    rw [hlink, Option.bind_some, if_neg (not_not.mpr rfl)]

theorem Put.sorted {y : ℕ} (hput : Put t t' y (I ++ [(q, value)]) xs above)
    (hsorted : ∀ z ∈ xs, ∃ J, LeafAt t z.1 J ∧ Rising Prod.fst J) (hs : Rising Prod.fst I)
    (hlast : ∀ x ∈ I, x.1 < q) (r : ℕ → ℤ) :
    ∀ z ∈ xs, ∃ J, LeafAt { t' with refs := r } z.1 J ∧ Rising Prod.fst J := by
  intro v hv
  by_cases hvy : v.1 = y
  · refine ⟨_, hvy ▸ hput.leaf.frame rfl rfl, ?_⟩
    refine List.pairwise_append.mpr ⟨hs, List.pairwise_singleton _ _, fun a ha b hb => ?_⟩
    rw [List.mem_singleton.mp hb]
    exact hlast a ha
  · obtain ⟨J, hJ, hJs⟩ := hsorted v hv
    exact ⟨J, (hput.others v.1 J hvy hJ).frame rfl rfl, hJs⟩

theorem Put.lookup_other {y : ℕ} (hput : Put t t' y (I ++ [(q, value)]) xs above)
    (h : Standing t L xs above) (hI : LeafAt t y I) (hs : Rising Prod.fst I)
    (hlast : ∀ x ∈ I, x.1 < q) {r : ℕ → ℤ} (hr : 0 ≤ r) {key : K} (hkey : key ≠ q) (size : ℕ) :
    btreeLookup env { t' with refs := r } key size =
      some (((L.lookup key).getD []).take size, { t' with refs := r }) := by
  have hsame : ∀ {v J}, LeafAt t' v J → LeafAt { t' with refs := r } v J := fun hJ =>
    hJ.frame rfl rfl
  have hindex : Index True { t' with refs := r } 1 xs above :=
    hput.index.mono rfl fun v l cs _ hc => hc.frame rfl rfl
  obtain ⟨P, v, Q, J, hloc, hJ, -, hrun⟩ := hindex.lookup env h.upper.rising
    (hput.sorted (h.leaves.sorted h.rising) hs hlast r) h.levels hr key size
  obtain ⟨J', hJ', -⟩ := h.leaves.sorted h.rising v (by simp [hloc.split])
  obtain ⟨A, B, hfor⟩ := leafFor_of_locates h.leaves h.rising hloc hJ'
  rw [hrun, hfor.lookup]
  by_cases hvy : v.1 = y
  · rw [hvy] at hJ hJ'
    obtain rfl := hJ.unique (hsame hput.leaf)
    obtain rfl := hJ'.unique hI
    have hno : [(q, value)].lookup key = none := lookup_of_notMem (by simpa using hkey)
    rw [List.lookup_append, hno, Option.or_none]
  · rw [hJ.unique (hsame (hput.others v.1 J' hvy hJ'))]

theorem Put.reads_other {y : ℕ} (hput : Put t t' y (I ++ [(q, value)]) xs above)
    (h : Standing t L xs above) (hI : LeafAt t y I) (hs : Rising Prod.fst I)
    (hlast : ∀ x ∈ I, x.1 < q) {r : ℕ → ℤ} (hr : 0 ≤ r) {key : K} {v : List UInt8}
    (hmem : (key, v) ∈ L) : Reads env { t' with refs := r } key v := by
  have hindex : Index True { t' with refs := r } 1 xs above :=
    hput.index.mono rfl fun v l cs _ hc => hc.frame rfl rfl
  obtain ⟨P, z, Q, A, J, B, place, hfor, -⟩ := h.search env key noPlace
  have hJ := (hfor.mem_iff v).mp hmem
  have hread := fun {J'} => hindex.reads env (I := J') (v := v) h.upper.rising
    (hput.sorted (h.leaves.sorted h.rising) hs hlast r) h.levels hr hfor.locates
  by_cases hzy : z.1 = y
  · obtain rfl := (hzy ▸ hfor.leaf : LeafAt t y J).unique hI
    exact hread (hzy ▸ hput.leaf.frame rfl rfl) (List.mem_append_left _ hJ)
  · exact hread ((hput.others z.1 J hzy hfor.leaf).frame rfl rfl) hJ

theorem Put.lookup_self {y : ℕ} (hput : Put t t' y (I ++ [(q, value)]) xs above)
    (h : Standing t L xs above) (hs : Rising Prod.fst I) (hlast : ∀ x ∈ I, x.1 < q) {r : ℕ → ℤ}
    (hr : 0 ≤ r) (hloc : Locates xs q pre z post) (hz : z.1 = y) (size : ℕ) :
    btreeLookup env { t' with refs := r } q size =
      some (value.take size, { t' with refs := r }) := by
  have hindex : Index True { t' with refs := r } 1 xs above :=
    hput.index.mono rfl fun v l cs _ hc => hc.frame rfl rfl
  obtain ⟨P, v, Q, J, hloc', hJ, hJs, hrun⟩ := hindex.lookup env h.upper.rising
    (hput.sorted (h.leaves.sorted h.rising) hs hlast r) h.levels hr q size
  obtain ⟨-, rfl, -⟩ := hloc.unique hloc'
  have hleaf : LeafAt { t' with refs := r } z.1 (I ++ [(q, value)]) := hz ▸ hput.leaf.frame rfl rfl
  obtain rfl := hJ.unique hleaf
  have hmem : (q, value) ∈ I ++ [(q, value)] := by simp
  rw [hrun, lookup_of_mem hJs hmem, Option.getD_some]

theorem LeafFor.next_mem (h : LeafFor s L xs q pre z post A I B) : post.headD z ∈ xs := by
  rw [h.locates.split]
  cases post <;> simp

theorem put_last {y f v : ℕ} (h : Upper t 1 xs above) (hready : Ready t)
    (hfit : above.length + 1 < 2 ^ 8) (hg : ¬ t.super.Fits I value → NodeGranted env t.mallocs)
    (hf : LeafAt t f I₂)
    (hu : I₂.head? = some u) (hv : (if q < u.1 then y else f) = v) (hI : LeafAt t v I)
    (hs : Rising Prod.fst I) (hne : I ≠ []) (hlast : ∀ x ∈ I, x.1 < q) (hr : 0 ≤ s.refs)
    (hrefs : t.refs = ((s.addRef y 1).addRef f 1).refs)
    (hlarge : t.super.itemNeeded value.length ≤ t.super.nodeSpace) :
    ¬ t.super.Fits I value ∧ t.leafSplitPut env y f q value = none ∨
    t.super.Fits I value ∧ ∃ t', t.leafSplitPut env y f q value = some (0, t'.addRef f (-1)) ∧
      Put t t' v (I ++ [(q, value)]) xs above := by
  obtain ⟨page, hp, -⟩ := hI.page_items
  have hrank : rank (I.map Prod.fst) q = I.length := by
    rw [← List.append_nil (I.map Prod.fst), rank_split, List.length_map]
    · exact List.forall_mem_map.mpr hlast
    · exact fun x hx => by cases hx
  have hiff := hI.leafIn.fits_iff hready.created hp value
  have hthird : page.free < t.super.itemNeeded value.length % 2 ^ 32 → NodeGranted env t.mallocs := by
    rw [hready.needed hlarge]
    exact fun hlt => hg (mt hiff.mpr (not_le.mpr hlt))
  rw [leafSplitPut_eq env hready hf hu hv hI hs hp hthird, hready.needed hlarge, hrank]
  split_ifs with hroom
  · obtain ⟨w, hw⟩ : ∃ w, I.getLast? = some w := Option.isSome_iff_exists.mp (by simpa using hne)
    obtain ⟨s₁, s₂, hupdate, hins, hput⟩ := put_between env (q := q) h hready hfit hI hw hp hroom
    have hres : ResidentAt s₂ f := by
      by_cases hfv : f = v
      · exact hfv ▸ hput.leaf.resident
      · exact (hput.others f I₂ hfv hf).resident
    have hrelease := btnodeRelease_counted env hres (addRef_nonneg hr y) (hput.refs.trans hrefs)
    refine Or.inr ⟨hiff.mp hroom, s₂, ?_, hput⟩
    rw [hupdate, Option.bind_some, hins, Option.bind_some, hrelease.1, Option.bind_some]
  · exact Or.inl ⟨mt hiff.mpr hroom, rfl⟩

/-- A leaf with its upper half linked behind it. -/
structure HalvesAt (t : Btree K D) (L : List (K × List UInt8)) (pre : List (ℕ × K)) (y f : ℕ)
    (k : K) (post : List (ℕ × K)) (above : List (List (ℕ × K))) (I₁ I₂ : List (K × List UInt8))
    (w u : K × List UInt8) : Prop where
  standing : Standing t L (pre ++ (y, w.1) :: (f, k) :: post) above
  left : LeafAt t y I₁
  right : LeafAt t f I₂
  rising : Rising Prod.fst (I₁ ++ I₂)
  last : I₁.getLast? = some w
  first : I₂.head? = some u

namespace HalvesAt

variable {y f : ℕ} {k : K}

theorem ne (h : HalvesAt t L pre y f k post above I₁ I₂ w u) : f ≠ y := by
  rintro rfl
  obtain rfl := h.right.unique h.left
  have humem : u ∈ I₂ := List.mem_of_head? h.first
  exact lt_irrefl u.1 ((List.pairwise_append.mp h.rising).2.2 u humem u humem)

theorem put_into {pre' post' : List (ℕ × K)} {v : ℕ × K}
    (h : HalvesAt t L pre y f k post above I₁ I₂ w u)
    (hg : ¬ t.super.Fits I value → NodeGranted env t.mallocs) (hr : 0 ≤ s.refs)
    (hrefs : t.refs = ((s.addRef y 1).addRef f 1).refs) (hq : q ∉ L.map Prod.fst)
    (hloc : Locates (pre ++ (y, w.1) :: (f, k) :: post) q pre' v post')
    (hv : (if q < u.1 then y else f) = v.1) (hI : LeafAt t v.1 I) (hlt : q < v.2)
    (hlarge : t.super.itemNeeded value.length ≤ t.super.nodeSpace) :
    t.super.Fits I value ∧ (∃ t' L' xs' above' m,
      t.leafSplitPut env y f q value = some (0, t') ∧ t'.refs = (s.addRef y 1).refs ∧
      L'.Perm ((q, value) :: L) ∧ Standing t' L' xs' above' ∧ (y, m) ∈ xs') ∨
    ¬ t.super.Fits I value ∧ t.leafSplitPut env y f q value = none := by
  obtain ⟨page, hp, -⟩ := hI.page_items
  have hs : Rising Prod.fst I := by
    obtain ⟨J, hJ, hs⟩ := h.standing.leaves.sorted h.standing.rising v (by simp [hloc.split])
    rwa [hI.unique hJ]
  have hiff := hI.leafIn.fits_iff h.standing.ready.created hp value
  have hneeded := h.standing.ready.needed hlarge
  have hput : t.leafSplitPut env y f q value = _ :=
    leafSplitPut_eq env h.standing.ready h.right h.first hv hI hs hp fun hlt =>
      hg (mt hiff.mpr (not_le.mpr (hneeded ▸ hlt)))
  rw [hneeded] at hput
  by_cases hfits : t.super.Fits I value
  · refine Or.inl ⟨hfits, ?_⟩
    obtain ⟨s₁, s₂, L', xs', above', hupdate, hins, hstand, hperm, hrefs₂, hnames⟩ :=
      h.standing.put_half env hloc hI hq hlt hp (hiff.mpr hfits)
    obtain ⟨m, hm⟩ := hnames (f, k) (by simp)
    obtain ⟨m', hm'⟩ := hnames (y, w.1) (by simp)
    obtain ⟨s₃, hrelease, hrefs₃, hstand₃⟩ := hstand.release env hm (addRef_nonneg hr y)
      (hrefs₂.trans hrefs)
    refine ⟨s₃, L', xs', above', m', ?_, hrefs₃, hperm, hstand₃, hm'⟩
    rw [hput, if_pos (hiff.mpr hfits), hupdate, Option.bind_some, hins, Option.bind_some, hrelease,
      Option.bind_some]
  · exact Or.inr ⟨hfits, by rw [hput, if_neg (mt hiff.mp hfits)]⟩

theorem put_behind (h : HalvesAt t L pre y f k post above I₁ I₂ w u)
    (hg : ¬ t.super.Fits I₁ value → NodeGranted env t.mallocs) (hr : 0 ≤ s.refs)
    (hrefs : t.refs = ((s.addRef y 1).addRef f 1).refs) (hwq : w.1 < q) (hqu : q < u.1)
    (hlarge : t.super.itemNeeded value.length ≤ t.super.nodeSpace) :
    ¬ t.super.Fits I₁ value ∧ t.leafSplitPut env y f q value = none ∨
    t.super.Fits I₁ value ∧ ∃ t',
      t.leafSplitPut env y f q value = some (0, t'.addRef f (-1)) ∧
      Put t t' y (I₁ ++ [(q, value)]) (pre ++ (y, w.1) :: (f, k) :: post) above := by
  obtain ⟨hs, -, -⟩ := List.pairwise_append.mp h.rising
  exact put_last env h.standing.upper h.standing.ready h.standing.levels hg h.right h.first
    (if_pos hqu) h.left hs (List.ne_nil_of_mem (List.mem_of_getLast? h.last))
    (fun x hx => (Rising.le_last hs h.last hx).trans_lt hwq) hr hrefs hlarge

theorem locates (_h : HalvesAt t L pre y f k post above I₁ I₂ w u) (hpre : ∀ x ∈ pre, x.2 < q)
    (hwq : w.1 < q) (hk : q < k) :
    Locates (pre ++ (y, w.1) :: (f, k) :: post) q (pre ++ [(y, w.1)]) (f, k) post := by
  refine ⟨by simp, fun x hx => ?_, Or.inl hk.le⟩
  rcases List.mem_append.mp hx with hx | hx
  · exact hpre x hx
  · rwa [List.mem_singleton.mp hx]

theorem hides (h : HalvesAt t L pre y f k post above I₁ I₂ w u)
    (hput : Put t t' y (I₁ ++ [(q, value)]) (pre ++ (y, w.1) :: (f, k) :: post) above)
    (hpre : ∀ x ∈ pre, x.2 < q) (hwq : w.1 < q) (hqu : q < u.1) (hk : q < k) {r : ℕ → ℤ}
    (hr : 0 ≤ r) : (∃ x place t'',
      btreeLookupLevel env { t' with refs := r } q 1 noPlace = some (x, place, t'') ∧
        place.found = false) ∧
    ∀ key v, (key, v) ∈ L → key ≠ q → Reads env { t' with refs := r } key v := by
  obtain ⟨hs₁, hs₂, -⟩ := List.pairwise_append.mp h.rising
  have hlower : ∀ x ∈ I₁, x.1 < q := fun x hx => (Rising.le_last hs₁ h.last hx).trans_lt hwq
  have hindex : Index True { t' with refs := r } 1 _ above :=
    hput.index.mono rfl fun v l cs _ hc => hc.frame rfl rfl
  have hright : LeafAt { t' with refs := r } f I₂ := (hput.others f I₂ h.ne h.right).frame rfl rfl
  refine ⟨hindex.search_fails env h.standing.upper.rising
    (hput.sorted (h.standing.leaves.sorted h.standing.rising) hs₁ hlower r) h.standing.levels hr
    (h.locates hpre hwq hk) hright (fun hmem => ?_) noPlace, fun key v hmem _ =>
    hput.reads_other env h.standing h.left hs₁ hlower hr hmem⟩
  obtain ⟨x, hx, hxq⟩ := List.mem_map.mp hmem
  exact (hqu.trans_le (Rising.head_le hs₂ h.first hx)).ne' hxq

end HalvesAt

theorem not_adds_of_none (hrun : s.btreeInsert env q value place = none) :
    ¬ Adds env s L q value place := by
  rintro ⟨s', L', xs, above, hrun', -⟩
  rw [hrun] at hrun'
  cases hrun'

/-- The call returns 0, and a search finds everything but the new key. -/
def Hides (s : Btree K D) (L : List (K × List UInt8)) (q : K) (value : List UInt8)
    (place : Place) : Prop :=
  ∃ s', s.btreeInsert env q value place = some (0, s') ∧
    (∃ x place' t, s'.btreeLookupLevel env q 1 noPlace = some (x, place', t) ∧
      place'.found = false) ∧ ∀ k v, (k, v) ∈ L → Reads env s' k v

theorem Hides.not_adds (h : Hides env s L q value place) : ¬ Adds env s L q value place := by
  obtain ⟨s', hrun, ⟨x, place₁, t₁, hlook, hfound⟩, -⟩ := h
  rintro ⟨s'', L', xs', above', hrun', -, hperm, hstand, -⟩
  obtain ⟨-, rfl⟩ := Prod.mk.inj (Option.some.inj (hrun.symm.trans hrun'))
  have hmem : q ∈ L'.map Prod.fst :=
    List.mem_map.mpr ⟨(q, value), hperm.mem_iff.mpr List.mem_cons_self, rfl⟩
  obtain ⟨x', place₂, t₂, hlook', hfound'⟩ := hstand.finds env hmem noPlace
  have hsame := hlook'.symm.trans hlook
  simp only [Option.some.injEq, Prod.mk.injEq] at hsame
  rw [hsame.2.1, hfound] at hfound'
  cases hfound'

/-- A split of the leaf adds the item to a half that takes it, hides it between the halves, or
goes wrong. -/
theorem split_cases {r : ℕ} (hg : NodeGranted env s.mallocs) (h : Standing s L xs above)
    (hreq : LinkRequests s 1 (names above) (post.headD z).1 r)
    (hgr : NodesGranted env (s.mallocs + 2) r)
    (hthird : ∀ u ∈ I₂.head?, ¬ s.super.Fits (if q < u.1 then I₁ else I₂) value →
      NodeGranted env (s.mallocs + 2 + 2 * r)) (hfit : above.length + 2 < 2 ^ 8)
    (hz : LeafFor s L xs q pre z post A (I₁ ++ I₂) B)
    (hhalf : I₁.length = (I₁ ++ I₂).length / 2) (hne : I₂ ≠ []) (hq : q ∉ L.map Prod.fst)
    (hk : q < z.2) (hlarge : s.super.itemNeeded value.length ≤ s.super.nodeSpace)
    {run : Option (ℤ × Btree K D)}
    (hrun : run = ((s.addRef z.1 1).btreeLeafSplitInsert env z.1 q value).bind fun r =>
      (r.2.btnodeRelease env z.1).bind fun s₁ => some ((if r.1 ≠ 0 then 2 else 0 : ℤ), s₁)) :
    (Takes s 1 above (post.headD z).1 ∧ s.super.HalvesTake I₁ I₂ q value) ∧
      (∃ s' L' xs' above', run = some (0, s') ∧ s'.refs = s.refs ∧ L'.Perm ((q, value) :: L) ∧
        Standing s' L' xs' above') ∨
    (Takes s 1 above (post.headD z).1 ∧ s.super.HalvesPart I₁ I₂ q value) ∧
      (∃ s', run = some (0, s') ∧
        (∃ x place' t, s'.btreeLookupLevel env q 1 noPlace = some (x, place', t) ∧
          place'.found = false) ∧ ∀ k v, (k, v) ∈ L → Reads env s' k v) ∨
    (¬ (Takes s 1 above (post.headD z).1 ∧ s.super.HalvesTake I₁ I₂ q value) ∧
      ¬ (Takes s 1 above (post.headD z).1 ∧ s.super.HalvesPart I₁ I₂ q value)) ∧ run = none := by
  have hr := h.ready.refs
  rcases leafSplitInsert_links env hg h hreq hgr hfit hz hhalf hne value (q := q) with
    ⟨hno, hnone⟩ | ⟨htakes, w, t, above', hw, hsplit, hstand, hleft, hright, hrefs, hconfig, hmallocs⟩
  · refine Or.inr (Or.inr ⟨⟨fun hT => hno ⟨hT.1, hT.2.1⟩, fun hT => hno ⟨hT.1, hT.2.1⟩⟩, ?_⟩)
    rw [hrun, hnone, Option.bind_none]
  obtain ⟨u, hu⟩ : ∃ u, I₂.head? = some u := Option.isSome_iff_exists.mp (by simpa using hne)
  have hH : HalvesAt t L pre z.1 s.fresh z.2 post above' I₁ I₂ w u :=
    ⟨hstand, hleft, hright, hz.rising, hw, hu⟩
  have hgeometry : t.super.toGeometry = s.super.toGeometry := congrArg Config.geometry hconfig
  rw [hsplit] at hrun
  rw [← hgeometry] at hlarge hthird ⊢
  replace hthird := hthird u hu
  rw [← hmallocs] at hthird
  obtain ⟨hs₁, hs₂, hcross⟩ := List.pairwise_append.mp hz.rising
  have hwmem : w ∈ I₁ := List.mem_of_getLast? hw
  have humem : u ∈ I₂ := List.mem_of_head? hu
  have hne' : ∀ x ∈ I₁ ++ I₂, x.1 ≠ q := fun x hx hxq =>
    hq (hz.key_mem_iff.mpr (hxq ▸ List.mem_map_of_mem hx))
  have hpre := hz.locates.before
  -- The release of the leaf, after the key went to a half.
  have hdone : (∃ t' L' xs' above' m, t.leafSplitPut env z.1 s.fresh q value = some (0, t') ∧
      t'.refs = (s.addRef z.1 1).refs ∧ L'.Perm ((q, value) :: L) ∧ Standing t' L' xs' above' ∧
      (z.1, m) ∈ xs') → ∃ s' L' xs' above', run = some (0, s') ∧ s'.refs = s.refs ∧
        L'.Perm ((q, value) :: L) ∧ Standing s' L' xs' above' := by
    rintro ⟨t', L', xs', above', m, hput, hrefs', hperm, hstand', hmem⟩
    obtain ⟨t'', hrelease, hrefs'', hstand''⟩ := hstand'.release env hmem hr hrefs'
    refine ⟨t'', L', xs', above', ?_, hrefs'', hperm, hstand''⟩
    rw [hrun, hput, Option.bind_some, hrelease]
    rfl
  have hfail : t.leafSplitPut env z.1 s.fresh q value = none → run = none := fun hnone => by
    rw [hrun, hnone, Option.bind_none]
  have hlower : w.1 < q → ∀ x ∈ I₁, x.1 < q := fun hwq x hx =>
    (Rising.le_last hs₁ hw hx).trans_lt hwq
  have hupper : q < u.1 → ∀ x ∈ I₂, q < x.1 := fun hqu x hx =>
    hqu.trans_le (Rising.head_le hs₂ hu hx)
  have hI₁ : I₁ ≠ [] := List.ne_nil_of_mem hwmem
  rcases lt_or_gt_of_ne (hne' w (List.mem_append_left _ hwmem)) with hwq | hqw
  · rcases lt_or_gt_of_ne (hne' u (List.mem_append_right _ humem)) with huq | hqu
    · have hloc : Locates (pre ++ (z.1, w.1) :: (s.fresh, z.2) :: post) q (pre ++ [(z.1, w.1)])
          (s.fresh, z.2) post := hH.locates hpre hwq hk
      rw [if_neg huq.not_gt] at hthird
      rcases hH.put_into env hthird hr hrefs hq hloc (if_neg huq.not_gt) hright hk hlarge with
        ⟨hfits, hput⟩ | ⟨hfits, hput⟩
      · exact Or.inl ⟨⟨htakes, hI₁, Or.inr ⟨⟨u, humem, huq⟩, hfits⟩⟩, hdone hput⟩
      · refine Or.inr (Or.inr ⟨⟨?_, ?_⟩, hfail hput⟩)
        · rintro ⟨-, -, ⟨⟨x, hx, hqx⟩, -⟩ | ⟨-, hno⟩⟩
          · exact lt_asymm hqx (hlower hwq x hx)
          · exact hfits hno
        · exact fun hpart => lt_asymm huq (hpart.2.2.2.1 u humem)
    · have hnot : ¬ (Takes s 1 above (post.headD z).1 ∧ t.super.HalvesTake I₁ I₂ q value) := by
        rintro ⟨-, -, ⟨⟨x, hx, hqx⟩, -⟩ | ⟨⟨x, hx, hxq⟩, -⟩⟩
        · exact lt_asymm hqx (hlower hwq x hx)
        · exact lt_asymm hxq (hupper hqu x hx)
      rw [if_pos hqu] at hthird
      rcases hH.put_behind env hthird hr hrefs hwq hqu hlarge with
        ⟨hfits, hput⟩ | ⟨hfits, t', hput, hstale⟩
      · exact Or.inr (Or.inr ⟨⟨hnot, fun hpart => hfits hpart.2.2.2.2⟩, hfail hput⟩)
      · refine Or.inr (Or.inl ⟨⟨htakes, hI₁, hlower hwq, hupper hqu, hfits⟩, ?_⟩)
        have hright' := hstale.others _ _ hH.ne hright
        obtain ⟨-, hrefs₁⟩ := btnodeRelease_counted env hright'.resident
          (addRef_nonneg hr z.1) (hstale.refs.trans hrefs)
        have hleaf : LeafAt (t'.addRef s.fresh (-1)) z.1 _ := hstale.leaf.frame rfl rfl
        obtain ⟨hrelease, hrefs₂⟩ := btnodeRelease_counted env hleaf.resident hr hrefs₁
        obtain ⟨hsearch, hlookup⟩ :=
          hH.hides env hstale hpre hwq hqu hk (hrefs₂ ▸ hr)
        refine ⟨_, ?_, hsearch, fun key v hmem => hlookup key v hmem ?_⟩
        · rw [hrun, hput, Option.bind_some, hrelease]
          rfl
        · rintro rfl
          exact hq (List.mem_map_of_mem (f := Prod.fst) hmem)
  · have hqu : q < u.1 := hqw.trans (hcross w hwmem u humem)
    have hloc : Locates (pre ++ (z.1, w.1) :: (s.fresh, z.2) :: post) q pre (z.1, w.1)
        ((s.fresh, z.2) :: post) := ⟨rfl, hpre, Or.inl hqw.le⟩
    rw [if_pos hqu] at hthird
    rcases hH.put_into env hthird hr hrefs hq hloc (if_pos hqu) hleft hqw hlarge with
      ⟨hfits, hput⟩ | ⟨hfits, hput⟩
    · exact Or.inl ⟨⟨htakes, hI₁, Or.inl ⟨⟨w, hwmem, hqw⟩, hfits⟩⟩, hdone hput⟩
    · refine Or.inr (Or.inr ⟨⟨?_, fun hpart => lt_asymm hqw (hpart.2.2.1 w hwmem)⟩, hfail hput⟩)
      rintro ⟨-, -, ⟨-, hno⟩ | ⟨⟨x, hx, hxq⟩, -⟩⟩
      · exact hfits hno
      · exact lt_asymm hxq (hupper hqu x hx)

theorem halves_cut {α : Type} {I : List α} (hI : I ≠ []) :
    (I.take (I.length / 2)).length = (I.take (I.length / 2) ++ I.drop (I.length / 2)).length / 2 ∧
      I.drop (I.length / 2) ≠ [] := by
  have hpos : 0 < I.length := List.length_pos_iff.mpr hI
  rw [List.take_append_drop, List.length_take, Ne, List.drop_eq_nil_iff]
  omega

theorem LeafFor.halves (h : LeafFor s L xs q pre z post A I B) :
    LeafFor s L xs q pre z post A (I.take (I.length / 2) ++ I.drop (I.length / 2)) B ∧
      (I.take (I.length / 2)).length =
        (I.take (I.length / 2) ++ I.drop (I.length / 2)).length / 2 ∧
      I.drop (I.length / 2) ≠ [] := by
  obtain ⟨w, hw, -⟩ := h.last
  refine ⟨?_, halves_cut (List.ne_nil_of_mem (List.mem_of_getLast? hw))⟩
  rwa [List.take_append_drop]

/-- A leaf without room is split for a key that has a larger one behind it. -/
theorem insert_full (h : Standing s L xs above)
    (hm : Miss env s L xs q place place' pre z post A C C' B) (hC' : C' ≠ [])
    (hsize : place.size ≠ value.length) (hroom : ¬ s.super.Room (C ++ C') value) :
    s.btreeInsert env q value place =
      ((s.addRef z.1 1).btreeLeafSplitInsert env z.1 q value).bind fun r =>
        (r.2.btnodeRelease env z.1).bind fun s₁ => some ((if r.1 ≠ 0 then 2 else 0 : ℤ), s₁) := by
  obtain ⟨r, hroot⟩ := h.index.root
  obtain ⟨page, hp, -, hcount⟩ := hm.leaf.leaf.page_items
  have hfull := mt (hm.leaf.leaf.leafIn.compares_iff h.ready.created hp value).mp hroom
  have hindex : place'.index < page.items := by
    rw [hm.index, hcount, List.length_append]
    exact Nat.lt_add_of_pos_right (List.length_pos_iff.mpr hC')
  rw [insert_miss env hroot hm.lookup hm.found hp, if_neg (hm.size ▸ hsize), if_neg hfull,
    if_pos hindex]

/-- The leaf has no room, and the key is not the largest of the tree. -/
theorem insert_split {n : ℕ} (hg : NodeGranted env s.mallocs) (h : Standing s L xs above)
    (hreq : LinkRequests s 1 (names above) (post.headD z).1 n)
    (hgr : NodesGranted env (s.mallocs + 2) n)
    (hthird : ¬ s.super.Fits (Geometry.halfFor (C ++ C') q) value →
      NodeGranted env (s.mallocs + 2 + 2 * n)) (hfit : above.length + 2 < 2 ^ 8)
    (hm : Miss env s L xs q place place' pre z post A C C' B)
    (hC' : C' ≠ []) (hsize : place.size ≠ value.length)
    (hfull : ¬ s.super.Fits (C ++ C') value)
    (hlarge : s.super.itemNeeded value.length ≤ s.super.nodeSpace) :
    (Takes s 1 above (post.headD z).1 ∧ s.super.Splits (C ++ C') q value) ∧
      Adds env s L q value place ∨
    (Takes s 1 above (post.headD z).1 ∧ s.super.Parts (C ++ C') q value) ∧
      Hides env s L q value place ∨
    (¬ (Takes s 1 above (post.headD z).1 ∧ s.super.Splits (C ++ C') q value) ∧
      ¬ (Takes s 1 above (post.headD z).1 ∧ s.super.Parts (C ++ C') q value)) ∧
      s.btreeInsert env q value place = none := by
  have hq : q ∉ L.map Prod.fst := by
    rw [hm.items]
    intro hmem
    obtain ⟨x, hx, hxq⟩ := List.mem_map.mp hmem
    rcases List.mem_append.mp hx with hx | hx
    · exact (hm.before x hx).ne hxq
    · exact (hm.behind x hx).ne' hxq
  have hrun := insert_full env h hm hC' hsize ((h.ready.room_iff_fits hlarge _).not.mpr hfull)
  obtain ⟨u', hu', huz⟩ := hm.leaf.last
  have hk : q < z.2 := by
    rw [List.getLast?_append_of_ne_nil _ hC'] at hu'
    rw [← huz]
    exact hm.behind u' (List.mem_append_left B (List.mem_of_getLast? hu'))
  obtain ⟨hz, hhalf, hne⟩ := hm.leaf.halves
  rcases split_cases env hg h hreq hgr (fun u hu => Geometry.halfFor_eq hu q ▸ hthird)
    hfit hz hhalf hne hq hk hlarge hrun with
    ⟨htakes, s', L', xs', above', hrun', hrefs, hperm, hstand⟩ |
    ⟨hparts, s', hrun', hsearch, hlookup⟩ | hno
  · exact Or.inl ⟨htakes, hstand.adds env hperm hrefs hrun'⟩
  · exact Or.inr (Or.inl ⟨hparts, s', hrun', hsearch, hlookup⟩)
  · exact Or.inr (Or.inr hno)

theorem insert_first (hg : NodeGranted env s.mallocs) (hr : Ready s) (hroot : s.root = none)
    (hheight : s.super.height = 1)
    (hlarge : s.super.itemNeeded value.length ≤ s.super.nodeSpace) :
    Adds env s [] q value place := by
  obtain ⟨t, hgrow, hnew, hready, hroot', hheight', hrefs, hgeometry⟩ :=
    btreeGrow_first env hg hr hheight
  have hroom : ∀ page, t.page s.fresh = some page → t.super.itemNeeded value.length ≤ page.free := by
    intro page hp
    rw [← hgeometry] at hlarge
    rw [hnew.fits_iff hready.created hp, Geometry.Fits]
    simpa using hlarge
  have hins : ∃ t', t.leafInsert s.fresh 0 q value = some t' ∧ Touches [s.fresh] t t' ∧
      LeafAt t' s.fresh [(q, value)] :=
    leafInsert_spec (A := []) (B := []) q hnew hready.created.blockSize hroom
  obtain ⟨t', hins, htouch, hleaf⟩ := hins
  have hstand : Standing t' [(q, value)] [(s.fresh, q)] [] := by
    refine ⟨htouch.ready hready, ?_, ⟨(s.fresh, q), rfl, htouch.root.trans hroot'⟩,
      List.pairwise_singleton _ _, ?_, by simp⟩
    · exact Grouped.single (P := fun y items => LeafAt t' y items) hleaf rfl
    · rw [htouch.height, hheight']
      rfl
  obtain ⟨t'', hrelease, hrefs', hstand'⟩ := hstand.release env (v := (s.fresh, q))
    List.mem_cons_self hr.refs (htouch.refs.trans hrefs)
  refine hstand'.adds env (List.Perm.refl _) hrefs' ?_
  unfold btreeInsert
  rw [hroot]
  change (s.btreeGrow env).bind _ = _
  rw [hgrow, Option.bind_some]
  change (t.leafInsert s.fresh 0 q value).bind _ = _
  rw [hins, Option.bind_some, hrelease]
  rfl

/-- The leaf where a new key belongs takes it: the item fits in; or there is a slot for another
leaf, and the key goes behind all others or the halves of the leaf take it. -/
def Accepts (s : Btree K D) (L : List (K × List UInt8)) (q : K) (value : List UInt8) : Prop :=
  s.root = none ∨ ∃ xs above pre z post A I B, Tree True s L xs above ∧
    LeafFor s L xs q pre z post A I B ∧ (s.super.Fits I value ∨
      Takes s 1 above (post.headD z).1 ∧ ((∀ x ∈ I, x.1 < q) ∨ s.super.Splits I q value))

/-- All branches of an insertion into a tree with a root. -/
theorem insert_cases (hg : ∀ n, env.granted n = true) (h : Standing s L xs above)
    (hfit : above.length + 2 < 2 ^ 8) (hz : LeafFor s L xs q pre z post A I B)
    (hq : q ∉ L.map Prod.fst) (hsize : place.size ≠ value.length)
    (hlarge : s.super.itemNeeded value.length ≤ s.super.nodeSpace) :
    (s.super.Fits I value ∨
      Takes s 1 above (post.headD z).1 ∧ ((∀ x ∈ I, x.1 < q) ∨ s.super.Splits I q value)) ∧
      Adds env s L q value place ∨
    (¬ s.super.Fits I value ∧ Takes s 1 above (post.headD z).1 ∧ s.super.Parts I q value) ∧
      Hides env s L q value place ∨
    (¬ (s.super.Fits I value ∨
      Takes s 1 above (post.headD z).1 ∧ ((∀ x ∈ I, x.1 < q) ∨ s.super.Splits I q value)) ∧
      ¬ (Takes s 1 above (post.headD z).1 ∧ s.super.Parts I q value)) ∧
      s.btreeInsert env q value place = none := by
  obtain ⟨place', pre', z', post', A', C, C', B', hm⟩ := h.miss env hq place
  obtain ⟨rfl, rfl, rfl⟩ := hz.locates.unique hm.leaf.locates
  obtain rfl := hz.leaf.unique hm.leaf.leaf
  obtain ⟨page, hp, -⟩ := hz.leaf.page_items
  have hiff := hz.leaf.leafIn.fits_iff h.ready.created hp value
  have hperm : (A' ++ C ++ (q, value) :: (C' ++ B')).Perm ((q, value) :: L) := by
    rw [hm.items]
    exact List.perm_middle
  by_cases hfits : s.super.Fits (C ++ C') value
  · obtain ⟨s', xs', above', hrun, hrefs, hstand, -⟩ :=
      insert_room env h hm hsize hp (hiff.mpr hfits)
    exact Or.inl ⟨Or.inl hfits, hstand.adds env hperm hrefs hrun⟩
  rw [or_iff_right hfits, and_iff_right hfits]
  by_cases hC' : C' = []
  · subst hC'
    obtain ⟨rfl, rfl⟩ := hm.last rfl
    have hall : ∀ x ∈ C ++ [], x.1 < q := fun x hx => by
      rw [List.append_nil] at hx
      exact hm.before x (List.mem_append_right A' hx)
    obtain ⟨r, hreq, hgr⟩ :=
      h.index.granted hg (v := z) (by simp [hz.locates.split]) (s.mallocs + 2)
    rcases insert_append env ⟨hg _, hg _⟩ h hreq hgr hfit hm hsize hp (mt hiff.mp hfits) hlarge with
      ⟨hno, hnone⟩ | ⟨hyes, s', xs', above', hrun, hrefs, hstand, -⟩
    · exact Or.inr (Or.inr ⟨⟨fun hT => hno hT.1, fun hT => hno hT.1⟩, hnone⟩)
    · exact Or.inl ⟨⟨hyes, Or.inl hall⟩, hstand.adds env hperm hrefs hrun⟩
  · have hnot : ¬ ∀ x ∈ C ++ C', x.1 < q := by
      obtain ⟨x, hx⟩ := List.exists_mem_of_ne_nil _ hC'
      intro hall
      exact lt_asymm (hall x (List.mem_append_right C hx)) (hm.behind x (List.mem_append_left B' hx))
    rw [or_iff_right hnot]
    obtain ⟨r, hreq, hgr⟩ := h.index.granted hg (hz.next_mem) (s.mallocs + 2)
    exact insert_split env ⟨hg _, hg _⟩ h hreq hgr (fun _ => ⟨hg _, hg _⟩) hfit hm hC' hsize hfits
      hlarge

theorem insert_iff (hg : ∀ n, env.granted n = true) (h : Standing s L xs above)
    (hfit : above.length + 2 < 2 ^ 8) (hz : LeafFor s L xs q pre z post A I B)
    (hq : q ∉ L.map Prod.fst) (hsize : place.size ≠ value.length)
    (hlarge : s.super.itemNeeded value.length ≤ s.super.nodeSpace) :
    Adds env s L q value place ↔ s.super.Fits I value ∨
      Takes s 1 above (post.headD z).1 ∧ ((∀ x ∈ I, x.1 < q) ∨ s.super.Splits I q value) := by
  rcases insert_cases env hg h hfit hz hq hsize hlarge with
    ⟨hyes, hadds⟩ | ⟨hpart, hhides⟩ | ⟨hno, hnone⟩
  · exact iff_of_true hadds hyes
  · refine iff_of_false hhides.not_adds ?_
    rintro (hfits | ⟨-, hall | hsplits⟩)
    · exact hpart.1 hfits
    · exact hpart.2.2.not_all hall
    · exact hpart.2.2.not_take hsplits
  · exact iff_of_false (not_adds_of_none env hnone) hno.1

theorem WellFormed.ready {E : Prop} (h : WellFormed E s L) : Ready s := by
  refine ⟨h.quiet.refs ▸ le_rfl, fun z hz => ⟨h.quiet.blank z hz, ?_⟩, h.created⟩
  rw [h.quiet.refs]
  rfl

/-- A new key is added to a well-formed tree exactly when the leaf where it belongs takes it. -/
theorem btreeInsert_adds_iff (hg : ∀ n, env.granted n = true) (h : WellFormed True s L)
    (hq : q ∉ L.map Prod.fst) (hsize : place.size ≠ value.length)
    (hlarge : s.super.itemNeeded value.length ≤ s.super.nodeSpace) :
    Adds env s L q value place ↔ Accepts s L q value := by
  have hready := h.ready
  have hroot : ∀ {xs above}, Tree True s L xs above → s.root ≠ none := fun ht hnone => by
    obtain ⟨r, hr⟩ := ht.index.root
    rw [hnone] at hr
    cases hr
  have hiff : ∀ {xs above pre z post A I B}, Tree True s L xs above →
      LeafFor s L xs q pre z post A I B → (Adds env s L q value place ↔ _) := fun ht hz =>
    insert_iff env hg (ht.standing hready) ht.levels hz hq hsize hlarge
  rcases h.tree with ⟨hnone, hheight, rfl⟩ | ⟨xs, above, ht⟩
  · exact iff_of_true (insert_first env ⟨hg _, hg _⟩ hready hnone hheight hlarge) (Or.inl hnone)
  · constructor
    · intro hadds
      obtain ⟨pre, z, post, A, I, B, place', hz, -⟩ :=
        (ht.standing hready).search env q place
      exact Or.inr ⟨xs, above, pre, z, post, A, I, B, ht, hz, (hiff ht hz).mp hadds⟩
    · rintro (hnone | ⟨xs', above', pre, z, post, A, I, B, ht', hz, hcond⟩)
      · exact absurd hnone (hroot ht)
      · exact (hiff ht' hz).mpr hcond

/-! ## A full leaf -/

def fullItems : List (ℕ × List UInt8) := [(0, List.replicate 36 0), (2, List.replicate 36 0)]

/-- A tree whose only leaf is full. -/
def fullLeaf : Btree ℕ Unit where
  super := ⟨⟨112, 4, 4, 4⟩, 0, 0, 2, 2, 1, 72, 0, 0, 0⟩
  superOffset := 0
  cache := Cache.open 0 true true
  disk := ()
  root := some 0
  heap x := if x = 0 then
    some ⟨none, some ⟨0, 1, .leaf ⟨[⟨0, 76, 36⟩, ⟨2, 40, 36⟩], 0, fun _ => 0⟩⟩, 0, 0, true, false,
      false⟩ else none
  refs := 0
  fresh := 1
  mallocs := 0

theorem fullLeaf_items : LeafAt fullLeaf 0 fullItems := by
  refine ⟨_, rfl, ⟨⟨⟨0, _, rfl, ?_⟩, Or.inl rfl⟩⟩⟩
  exact ⟨rfl, ⟨rfl, rfl, trivial⟩, by decide, by decide⟩

theorem fullLeaf_tree : Tree True fullLeaf fullItems [(0, 2)] [] where
  leaves := Grouped.single (P := fun y items => LeafAt fullLeaf y items)
    (w := (2, List.replicate 36 0)) fullLeaf_items rfl
  index := ⟨(0, 2), rfl, rfl⟩
  rising := by simp [fullItems, Rising]
  height := rfl
  levels := by decide

theorem fullLeaf_formed : WellFormed True fullLeaf fullItems where
  created := chains_created
  quiet := ⟨rfl, fun _ hz => if_neg (Nat.ne_of_gt hz)⟩
  tree := Or.inr ⟨_, _, fullLeaf_tree⟩

/-- A key behind all others goes to a new leaf. -/
theorem btreeInsert_adds_iff_full :
    Adds memoryEnv fullLeaf fullItems 3 (List.replicate 10 7) noPlace ↔
      Accepts fullLeaf fullItems 3 (List.replicate 10 7) :=
  btreeInsert_adds_iff memoryEnv (fun _ => rfl) fullLeaf_formed (by decide) (by decide) (by decide)

/-- A key between the halves is put into the lower one, where no search finds it. -/
theorem btreeInsert_misplaces : WellFormed True fullLeaf fullItems ∧ 1 ∉ fullItems.map Prod.fst ∧
    fullLeaf.super.itemNeeded 10 ≤ fullLeaf.super.nodeSpace ∧
    ¬ Adds memoryEnv fullLeaf fullItems 1 (List.replicate 10 7) noPlace := by
  refine ⟨fullLeaf_formed, by decide, by decide, fun hadds => ?_⟩
  have hloc : Locates [(0, 2)] 1 [] (0, 2) [] := ⟨rfl, by simp, Or.inr rfl⟩
  obtain ⟨A, B, hz⟩ :=
    leafFor_of_locates fullLeaf_tree.leaves fullLeaf_tree.rising hloc fullLeaf_items
  have hstand := fullLeaf_tree.standing fullLeaf_formed.ready
  rw [insert_iff memoryEnv (fun _ => rfl) hstand (by decide) hz (by decide) (by decide) (by decide)]
    at hadds
  rcases hadds with hfits | ⟨-, hall | hsplits⟩
  · exact absurd hfits (by decide)
  · exact absurd hall (by decide)
  · exact absurd hsplits (by decide)

end Btree

end Carthage
