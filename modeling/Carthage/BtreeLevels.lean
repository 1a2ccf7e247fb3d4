import Carthage.BtreeUndo

/-!
# The levels from one level up

The nodes of one level with the levels above them, apart from what is below: what the
updates of separators and a new root do to them.
-/

namespace Carthage

/-- 16 bits are too few for the number of entries that a block has room for. -/
def Geometry.Cut (g : Geometry) : Prop := 2 ^ 16 ≤ g.nodeSpace / g.twigNeeded

namespace Btree

variable {K D : Type} {s s' s'' : Btree K D} {E : Prop} {level l x y : ℕ}
  {xs ys cs c1 c2 pre post : List (ℕ × K)} {above above' : List (List (ℕ × K))} {z : ℕ × K}

theorem forall_mem_middle {α : Type} {P : α → Prop} {A B : List α} {a : α}
    (h : ∀ y ∈ A ++ B, P y) (ha : P a) : ∀ y ∈ A ++ a :: B, P y := by
  intro y hy
  rcases List.mem_append.mp hy with hA | hB
  · exact h y (List.mem_append_left B hA)
  · rcases List.mem_cons.mp hB with rfl | hB
    · exact ha
    · exact h y (List.mem_append_right A hB)

theorem split_unique {α : Type} {P : α → Prop} {A B A' B' : List α} (h : A ++ B = A' ++ B')
    (hA : ∀ y ∈ A, P y) (hB : ∀ y ∈ B, ¬ P y) (hA' : ∀ y ∈ A', P y) (hB' : ∀ y ∈ B', ¬ P y) :
    A = A' ∧ B = B' := by
  rcases List.append_eq_append_iff.mp h with ⟨C, hC, hC'⟩ | ⟨C, hC, hC'⟩
  · cases C with
    | nil => simp_all
    | cons y C => exact absurd (hA' y (by simp [hC])) (hB y (by simp [hC']))
  · cases C with
    | nil => simp_all
    | cons y C => exact absurd (hA y (by simp [hC])) (hB' y (by simp [hC']))

/-! ## What stays -/

/-- The nodes up to a level are those of the other state. -/
structure SameBelow (level : ℕ) (s s' : Btree K D) : Prop where
  config : s'.config = s.config
  low : ∀ z page, s.page z = some page → page.level ≤ level → s'.heap z = s.heap z

namespace SameBelow

theorem refl (level : ℕ) (s : Btree K D) : SameBelow level s s := ⟨rfl, fun _ _ _ _ => rfl⟩

theorem page (h : SameBelow level s s') {page : Page K} (hp : s.page x = some page)
    (hl : page.level ≤ level) : s'.page x = some page := by
  unfold Btree.page
  rw [h.low x page hp hl]
  exact hp

theorem trans (h : SameBelow level s s') (h' : SameBelow level s' s'') :
    SameBelow level s s'' := by
  refine ⟨h'.config.trans h.config, fun y page hp hl => ?_⟩
  have hpage : s'.page y = some page := h.page hp hl
  rw [h'.low y page hpage hl, h.low y page hp hl]

theorem mono (h : SameBelow l s s') (hl : level ≤ l) : SameBelow level s s' :=
  ⟨h.config, fun y page hp hle => h.low y page hp (hle.trans hl)⟩

theorem rooted (h : SameBelow level s s') (hx : Rooted s level x) : Rooted s' level x :=
  hx.frame h.config h.low

theorem twigAt (h : SameBelow level s s') (hl : l ≤ level) (ht : TwigAt E s x l cs) :
    TwigAt E s' x l cs := by
  obtain ⟨page, hp, hpl, -⟩ := ht.page_items
  exact ht.frame h.config (h.low x page hp (hpl.le.trans hl))

theorem leafAt {items : List (K × List UInt8)} (h : SameBelow level s s') (hl : 1 ≤ level)
    (hx : LeafAt s x items) : LeafAt s' x items := by
  obtain ⟨page, hp, hpl, -⟩ := hx.page_items
  exact hx.frame h.config (h.low x page hp (hpl.le.trans hl))

theorem setNode (h : SameBelow level s s') (hx : s.heap x = none) (node : BtNode K) :
    SameBelow level s (s'.setNode x node) := by
  refine ⟨h.config, fun y page hp hl => ?_⟩
  have hyx : y ≠ x := by
    rintro rfl
    simp [Btree.page, hx] at hp
  rw [setNode_heap_ne s' hyx, h.low y page hp hl]

theorem addRef (h : SameBelow level s s') (y : ℕ) (n : ℤ) : SameBelow level s (s'.addRef y n) :=
  ⟨h.config, h.low⟩

theorem lastKey (h : SameBelow level s s') [LinearOrder K] (hx : Rooted s level x) :
    s'.lastKey x = s.lastKey x := by
  obtain ⟨page, hp, hpl⟩ := hx.page
  unfold Btree.lastKey
  rw [hp, h.page hp hpl.le]

theorem allocated {uninit : Bytes} (hb : s.Blank) : SameBelow l s (s.allocated uninit level) := by
  refine ⟨rfl, fun y page hp _ => allocated_heap_ne (hb.ne_fresh fun hno => ?_)⟩
  simp [Btree.page, hno] at hp

end SameBelow

/-- References are counts, new addresses are unused, and the geometry is one of `btree_create`. -/
structure Ready (s : Btree K D) : Prop where
  refs : 0 ≤ s.refs
  blank : s.Blank
  created : s.super.toGeometry.Created

theorem allocated_heap_fresh (s : Btree K D) (uninit : Bytes) (level : ℕ) :
    (s.allocated uninit level).heap s.fresh ≠ none := by
  simp [Btree.allocated]

namespace Ready

theorem setNode (h : Ready s) (hx : s.heap x ≠ none) (node : BtNode K) :
    Ready (s.setNode x node) := by
  refine ⟨h.refs, fun z hz => ⟨?_, (h.blank z hz).2⟩, h.created⟩
  have hzx : z ≠ x := by
    rintro rfl
    exact hx (h.blank z hz).1
  rw [setNode_heap_ne s hzx]
  exact (h.blank z hz).1

theorem addRef (h : Ready s) (hx : s.heap x ≠ none) : Ready (s.addRef x 1) := by
  refine ⟨addRef_nonneg h.refs x, fun z hz => ⟨(h.blank z hz).1, ?_⟩, h.created⟩
  have hzx : z ≠ x := by
    rintro rfl
    exact hx (h.blank z hz).1
  simp [Btree.addRef, hzx, (h.blank z hz).2]

theorem retwig (h : Ready s) (hr : Retwig level s s') : Ready s' := by
  refine ⟨hr.refs ▸ h.refs, fun z hz => ?_, hr.super ▸ h.created⟩
  have hz' : s.fresh ≤ z := by
    obtain ⟨g, rfl⟩ := hr.heap
    exact hz
  exact ⟨hr.absent z (h.blank z hz').1, hr.refs ▸ (h.blank z hz').2⟩

theorem allocated (h : Ready s) (uninit : Bytes) (level : ℕ) :
    Ready (s.allocated uninit level) := ⟨h.refs, h.blank.allocated, h.created⟩

theorem alloc (h : Ready s) (uninit : Bytes) (level : ℕ) :
    Ready ((s.allocated uninit level).addRef s.fresh 1) :=
  (h.allocated uninit level).addRef (allocated_heap_fresh s uninit level)

theorem allocates (h : Ready s) {x : ℕ} (hx : s.heap x ≠ none) (uninit : Bytes) (l : ℕ) :
    SameBelow l s (((s.addRef x 1).allocated uninit 1).addRef s.fresh 1) :=
  ((SameBelow.refl l s).addRef x 1).trans ((SameBelow.allocated (h.addRef hx).blank).addRef _ _)

end Ready

theorem ResidentAt.heap (h : ResidentAt s x) : s.heap x ≠ none := by
  obtain ⟨node, hx, -⟩ := h
  rw [hx]
  exact Option.some_ne_none node

theorem Rooted.heap (h : Rooted s level x) : s.heap x ≠ none := h.resident.heap

theorem Retwig.sameBelow (h : Retwig level s s') : SameBelow level s s' := ⟨h.config, h.low⟩

theorem label_unique (hk : ∀ z ∈ xs, s.lastKey z.1 = some z.2) :
    ∀ v ∈ xs, ∀ w ∈ xs, v.1 = w.1 → v = w := by
  intro v hv w hw hname
  have hkey : some v.2 = some w.2 := by rw [← hk v hv, ← hk w hw, hname]
  exact Prod.ext hname (Option.some.inj hkey)

/-- The state with a new root over the old one, without the reference to it. -/
def regrown (uninit : Bytes) (s : Btree K D) (level : ℕ) (node : BtNode K) : Btree K D :=
  { (s.allocated uninit level).setNode s.fresh node with
    root := some s.fresh,
    super := { (s.allocated uninit level).super with height := (s.super.height + 1) % 2 ^ 8 } }

theorem Ready.regrown (h : Ready s) (uninit : Bytes) (level : ℕ) (node : BtNode K) :
    Ready (s.regrown uninit level node) := by
  have hready := (h.allocated uninit level).setNode (allocated_heap_fresh s uninit level) node
  exact ⟨hready.refs, hready.blank, hready.created⟩

theorem btnodeRelease_counted (env : BtreeEnv K D) (h : ResidentAt s' x) (hr : 0 ≤ s.refs)
    (heq : s'.refs = (s.addRef x 1).refs) :
    s'.btnodeRelease env x = some (s'.addRef x (-1)) ∧ (s'.addRef x (-1)).refs = s.refs := by
  constructor
  · apply btnodeRelease_resident env h
    have := hr x
    rw [heq, addRef_self]
    simp only [Pi.zero_apply] at this
    omega
  · change s'.refs + Pi.single x (-1) = s.refs
    rw [heq]
    exact congrArg Btree.refs (addRef_cancel s x)

theorem Ready.release (h : Ready s) (hx : s.heap x ≠ none) (hr : 0 ≤ (s.addRef x (-1)).refs) :
    Ready (s.addRef x (-1)) := by
  refine ⟨hr, fun z hz => ⟨(h.blank z hz).1, ?_⟩, h.created⟩
  have hzx : z ≠ x := by
    rintro rfl
    exact hx (h.blank z hz).1
  simp [Btree.addRef, hzx, (h.blank z hz).2]

/-! ## Room in a twig -/

theorem twig_spare {g : Geometry} {free n : ℕ} (hfree : free + n * g.twigNeeded = g.nodeSpace) :
    g.twigNeeded ≤ free ↔ n < g.nodeSpace / g.twigNeeded := by
  have hpos : 0 < g.twigNeeded := Nat.lt_add_left _ (by decide)
  rw [Nat.lt_iff_add_one_le, Nat.le_div_iff_mul_le hpos, Nat.add_mul, Nat.one_mul]
  omega

theorem two_entries {g : Geometry} (hg : g.Created) : 2 ≤ g.nodeSpace / g.twigNeeded := by
  have hpos : 0 < g.twigNeeded := Nat.lt_add_left _ (by decide)
  have hlarge := hg.large
  rw [Nat.le_div_iff_mul_le hpos, Geometry.twigNeeded, Geometry.nodeSpace, hg.prefixSize]
  omega

theorem fanout_le {g : Geometry} (hg : g.Created) : g.fanout ≤ g.nodeSpace / g.twigNeeded :=
  hg.fanout ▸ Nat.mod_le _ _

theorem fanout_cut {g : Geometry} (hg : g.Created) (h : g.fanout < g.nodeSpace / g.twigNeeded) :
    g.Cut := by
  rw [Geometry.Cut]
  by_contra hlt
  rw [hg.fanout, Nat.mod_eq_of_lt (not_le.mp hlt)] at h
  exact lt_irrefl _ h

theorem fanout_lt {g : Geometry} (hg : g.Created) : g.fanout < 2 ^ 16 :=
  hg.fanout ▸ Nat.mod_lt _ (by decide)

theorem twig_full {g : Geometry} (hg : g.Created) {free n : ℕ}
    (hfree : free + n * g.twigNeeded = g.nodeSpace) (hn : n ≤ g.fanout)
    (hlt : ¬ g.twigNeeded ≤ free) : n = g.fanout ∧ 2 ≤ n := by
  rw [twig_spare hfree] at hlt
  have hle := fanout_le hg
  have htwo := two_entries hg
  omega

theorem TwigAt.within (h : TwigAt E s x level cs) : cs.length ≤ s.super.fanout := by
  obtain ⟨node, -, ⟨t⟩⟩ := h
  exact t.within

theorem twigInsertChild_full (h : TwigIn E s x level cs) (hfull : s.super.fanout ≤ cs.length)
    (i : ℕ) (key : K) (child : ℕ) : s.twigInsertChild x i key child = none := by
  obtain ⟨node, hx, ⟨b⟩⟩ := h
  have hlen : b.twig.entries.length = cs.length := by simpa using congrArg List.length b.keys
  have hF : b.pointers.length = s.super.fanout := b.length
  have hno : ¬ (i ≤ cs.length ∧ cs.length < b.pointers.length) := by omega
  simp only [twigInsertChild, twigInsert, hx, b.data, b.array, Page.twig?, hlen, if_neg hno,
    Option.bind_eq_bind, Option.bind_some, Option.bind_none]

theorem last_label {k : K} {w : ℕ × K} (hw : (c1 ++ c2).getLast? = some w) (x : ℕ) :
    ∃ w', (c1 ++ (x, k) :: c2).getLast? = some w' ∧ w'.2 = if c2 = [] then k else w.2 := by
  cases c2 with
  | nil => exact ⟨(x, k), by simp, by simp⟩
  | cons y c2 =>
      refine ⟨w, ?_, by simp⟩
      rw [← hw]
      simp

/-! ## Splitting -/

/-- What allocation and split leave of a twig. -/
structure Split (s t : Btree K D) (level y : ℕ) (cl cr : List (ℕ × K)) : Prop where
  left : TwigAt True t y (level + 1) cl
  right : TwigAt True t s.fresh (level + 1) cr
  others : ∀ v l c, v ≠ y → TwigAt True s v l c → TwigAt True t v l c
  below : SameBelow level s t
  refs : t.refs = ((s.addRef y 1).addRef s.fresh 1).refs
  height : t.super.height = s.super.height
  root : t.root = s.root
  ready : Ready t
  mallocs : t.mallocs = s.mallocs + 2
  bare : (cl ++ cr).length = s.super.fanout →
    BareAt t y (level + 1) cl ∧ BareAt t s.fresh (level + 1) cr

theorem splitTwig_spec {cl cr : List (ℕ × K)} (uninit : Bytes) (hr : Ready s) (hl : 1 ≤ level)
    (hy : TwigAt True s y (level + 1) (cl ++ cr)) (hhalf : cl.length = (cl ++ cr).length / 2) :
    ∃ t, (((s.addRef y 1).allocated uninit (level + 1)).addRef s.fresh 1).twigSplit y s.fresh =
      some t ∧ Split s t level y cl cr := by
  have hne : y ≠ s.fresh := hr.blank.ne_fresh (ResidentAt.heap hy.resident)
  let t₀ := s.addRef y 1
  have hrt₀ : Ready t₀ := hr.addRef (ResidentAt.heap hy.resident)
  let t₁ := (t₀.allocated uninit (level + 1)).addRef s.fresh 1
  have hrt₁ : Ready t₁ := hrt₀.alloc uninit (level + 1)
  have hbelow₁ : ∀ l, SameBelow l s t₁ := fun l =>
    ((SameBelow.refl l s).addRef y 1).trans ((SameBelow.allocated hrt₀.blank).addRef _ _)
  have hnew : TwigIn True t₁ s.fresh (level + 1) [] :=
    (twigIn_allocated (by omega) (fanout_lt hr.created)).frame rfl rfl
  have hold : TwigAt True t₁ y (level + 1) (cl ++ cr) := (hbelow₁ (level + 1)).twigAt le_rfl hy
  obtain ⟨lnode, rnode, hsplit, hleft, hright⟩ :=
    twigSplit_spec hold.twigIn hnew hne hrt₁.created hhalf
  have hfresh : s.heap s.fresh = none := (hr.blank _ le_rfl).1
  let t₂ := t₁.setNode s.fresh rnode
  have hbelow₂ : ∀ l, SameBelow l s t₂ := fun l => (hbelow₁ l).setNode hfresh rnode
  have hrt₂ : Ready t₂ := hrt₁.setNode (allocated_heap_fresh t₀ uninit (level + 1)) rnode
  refine ⟨t₂.setNode y lnode, hsplit, hleft, hright, fun v l c hv hc => ?_, ?_, rfl, rfl, rfl, ?_, rfl,
    fun hfull => ?_⟩
  · exact ((hbelow₂ l).twigAt le_rfl hc).frame rfl (setNode_heap_ne t₂ hv lnode)
  · refine ⟨rfl, fun v page hp hle => ?_⟩
    rw [setNode_heap_ne t₂ _ lnode, (hbelow₂ level).low v page hp hle]
    rintro rfl
    obtain ⟨page', hp', hpl, -⟩ := hy.page_items
    obtain rfl := Option.some.inj (hp.symm.trans hp')
    omega
  · apply hrt₂.setNode
    exact ResidentAt.heap ((hbelow₂ (level + 1)).twigAt le_rfl hy).resident
  · have hempty : (emptyNode uninit t₀ (level + 1)).pointers =
        some (List.replicate s.super.fanout none) := if_neg (by omega)
    exact twigSplit_bare hold hnew (Function.update_self _ _ _) hempty hfull hhalf hne.symm hsplit

theorem exists_halves (h : 2 ≤ cs.length) : ∃ cl z cr, cs = cl ++ z :: cr ∧
    cl.length = (cl ++ z :: cr).length / 2 ∧ cl ≠ [] := by
  have hdrop : cs.drop (cs.length / 2) ≠ [] := by
    rw [Ne, List.drop_eq_nil_iff]
    omega
  obtain ⟨z, cr, hcr⟩ := List.ne_nil_iff_exists_cons.mp hdrop
  have hcut : cs = cs.take (cs.length / 2) ++ z :: cr := by
    rw [← hcr, List.take_append_drop]
  refine ⟨cs.take (cs.length / 2), z, cr, hcut, ?_, ?_⟩
  · rw [← hcut, List.length_take]
    omega
  · rw [Ne, List.take_eq_nil_iff]
    rintro (hzero | rfl)
    · omega
    · simp at h

variable [LinearOrder K]

theorem twigIndex_spec {k : K} (h : TwigIn E s x level (c1 ++ c2))
    (hs : Rising Prod.snd (c1 ++ c2)) (h1 : ∀ z ∈ c1, z.2 < k) (h2 : ∀ z ∈ c2, k < z.2) :
    s.twigIndex x k = some c1.length := by
  obtain ⟨crc, twig, hp, hk, -⟩ := h.page
  have hrank : rank ((c1 ++ c2).map Prod.snd) k = c1.length := by
    rw [List.map_append, rank_split, List.length_map]
    · exact List.forall_mem_map.mpr h1
    · exact List.forall_mem_map.mpr fun z hz => (h2 z hz).le
  have hsearch : indexSearch _ k = _ := indexSearch_spec (rising_map.mp hs)
  rw [hrank] at hsearch
  simp only [twigIndex, hp, Page.twig?, hk, hsearch, Option.bind_eq_bind, Option.bind_some,
    Option.pure_def]

/-- The nodes `xs` of a level with the levels above them. Only the last key of a root is read. -/
structure Upper (s : Btree K D) (level : ℕ) (xs : List (ℕ × K)) (above : List (List (ℕ × K))) :
    Prop where
  index : Index True s level xs above
  rising : Rising Prod.snd xs
  rooted : ∀ z ∈ xs, Rooted s level z.1
  keys : above = [] → ∀ z ∈ xs, s.lastKey z.1 = some z.2
  height : s.super.height = (level + above.length + 1) % 2 ^ 8

theorem Groups.keys (h : Groups E s level xs ys) : ∀ u ∈ ys, s.lastKey u.1 = some u.2 := by
  intro u hu
  obtain ⟨cs, w, hc, hw, hwu, -⟩ := h.group hu
  rw [← hwu]
  exact hc.twigIn.lastKey hw

namespace Upper

theorem pos (h : Upper s level xs above) : 1 ≤ level := by
  obtain ⟨z, hz⟩ := List.exists_mem_of_ne_nil _ h.index.nonempty
  have hroot := h.rooted z hz
  cases level with
  | zero => exact hroot.elim
  | succ level => exact Nat.succ_le_succ (Nat.zero_le level)

theorem up (h : Upper s level xs (ys :: above)) : Upper s (level + 1) ys above := by
  obtain ⟨hg, hi⟩ := h.index
  refine ⟨hi, hg.rising h.rising, hg.rooted h.pos h.rooted, fun _ => hg.keys, ?_⟩
  rw [h.height, List.length_cons]
  congr 1
  omega

theorem same (h : Upper s level xs above) (hb : ∀ l, SameBelow l s s') (hroot : s'.root = s.root)
    (hh : s'.super.height = s.super.height) : Upper s' level xs above := by
  refine ⟨h.index.mono hroot fun y l cs _ hy => (hb l).twigAt le_rfl hy, h.rising,
    fun z hz => (hb level).rooted (h.rooted z hz), fun hroot' z hz => ?_, hh ▸ h.height⟩
  rw [(hb level).lastKey (h.rooted z hz), h.keys hroot' z hz]

end Upper

/-! ## Separators -/

variable (env : BtreeEnv K D)

theorem btreeTwigsUpdate_spec (h : Index E s level xs above) (hs : Rising Prod.snd xs)
    (hl : 1 ≤ level) (hroot : ∀ z ∈ xs, Rooted s level z.1) (hfit : level + above.length < 2 ^ 8)
    (hr : 0 ≤ s.refs) {page : Page K} (hp : s.page x = some page) (hpl : page.level = level)
    {old new : K} {newKey : Option K} (hnew : newKey = some new ∨ ∀ z ∈ xs, z.2 ≠ old) :
    ∃ s', s.btreeTwigsUpdate env x old newKey = some s' ∧ Retwig level s s' ∧
      Index E s' level (xs.map (rename old new)) (above.map (List.map (rename old new))) ∧
      Renames E s s' old new level above := by
  have hn : above.length < maxLevels := by
    have : maxLevels = 2 ^ 8 := rfl
    omega
  obtain ⟨s', hloop, hre, hi⟩ := twigsUpdateLoop_spec env h hs hl hroot hfit hr hnew hn
  refine ⟨s', ?_, hre, hi⟩
  simp only [btreeTwigsUpdate, hp, hpl, hloop, Option.bind_eq_bind, Option.bind_some]

theorem btreeTwigsInsertUpdate_spec (h : Index E s level xs above) (hs : Rising Prod.snd xs)
    (hl : 1 ≤ level) (hroot : ∀ z ∈ xs, Rooted s level z.1) (hfit : level + above.length < 2 ^ 8)
    (hr : 0 ≤ s.refs) {page : Page K} (hp : s.page x = some page) (hpl : page.level = level)
    {last : K} (hlast : s.lastKey x = some last) (i : ℕ) (key : K) :
    ∃ s', s.btreeTwigsInsertUpdate env x i key = some s' ∧ Retwig level s s' ∧
      Index E s' level (xs.map (rename last (if i = page.items then key else last)))
        (above.map (List.map (rename last (if i = page.items then key else last)))) ∧
      Renames E s s' last (if i = page.items then key else last) level above := by
  obtain ⟨s', hupdate, hre, hi⟩ := btreeTwigsUpdate_spec env h hs hl hroot hfit hr hp hpl
    (.inl rfl : some (if i = page.items then key else last) = _ ∨ ∀ z ∈ xs, z.2 ≠ last)
  refine ⟨s', ?_, hre, hi⟩
  simp only [btreeTwigsInsertUpdate, hlast, hp, Option.bind_eq_bind, Option.bind_some]
  rw [← hupdate]
  split_ifs <;> rfl

/-! ## A new root -/

theorem btreeGrow_spec (hg : NodeGranted env s.mallocs) (h : Upper s level [z] []) (hr : Ready s)
    (hfit : level + 1 < 2 ^ 8) :
    s.btreeGrow env = none ∧ s.super.fanout = 0 ∨
    ∃ node, s.btreeGrow env =
        some (some s.fresh, (s.regrown env.uninit (level + 1) node).addRef s.fresh 1) ∧
      TwigAt True (s.regrown env.uninit (level + 1) node) s.fresh (level + 1) [z] := by
  have hpos := h.pos
  have hheight : s.super.height = level + 1 := by
    rw [h.height]
    exact Nat.mod_eq_of_lt hfit
  obtain ⟨z', hz', hroot⟩ := h.index
  obtain rfl : z = z' := List.singleton_inj.mp hz'
  have hrooted := h.rooted z List.mem_cons_self
  have hkey := h.keys rfl z List.mem_cons_self
  let t := (s.allocated env.uninit (level + 1)).addRef s.fresh 1
  have hbelow : SameBelow level s t := (SameBelow.allocated hr.blank).addRef _ _
  have hrt : Ready t := hr.alloc env.uninit (level + 1)
  have hzt : Rooted t level z.1 := hbelow.rooted hrooted
  have hfetch : t.btreeFetchRoot env = some (some z.1, t.addRef z.1 1) :=
    btreeFetchRoot_resident env hroot hzt.resident
  have hlast : (t.addRef z.1 1).lastKey z.1 = some z.2 :=
    ((hbelow.addRef z.1 1).lastKey hrooted).trans hkey
  have hnew : TwigIn True (t.addRef z.1 1) s.fresh (level + 1) ([] ++ []) :=
    (twigIn_allocated (by omega) (fanout_lt hr.created)).frame rfl rfl
  have hheight' : s.super.height > 1 := by omega
  have hgrow : s.btreeGrow env = ((t.addRef z.1 1).twigInsertChild s.fresh 0 z.2 z.1).bind fun s₁ =>
      (s₁.btnodeRelease env z.1).bind fun s₂ => some (some s.fresh, { s₂ with
        root := some s.fresh,
        super := { s₂.super with height := (s₂.super.height + 1) % 2 ^ 8 } }) := by
    rw [btreeGrow]
    simp only [btnodeAlloc_granted env hg hr.blank, hheight', if_true, Option.bind_eq_bind]
    rw [hheight]
    change (t.btreeFetchRoot env).bind _ = _
    simp only [hfetch, hlast, twigInsertChild, Option.bind_eq_bind, Option.bind_some,
      Option.bind_assoc, Option.pure_def]
  by_cases hzero : s.super.fanout = 0
  · refine Or.inl ⟨?_, hzero⟩
    have hfull : (t.addRef z.1 1).super.fanout ≤ ([] ++ [] : List (ℕ × K)).length := hzero.le
    rw [hgrow, twigInsertChild_full hnew hfull, Option.bind_none]
  · obtain ⟨node, hins, htwig⟩ := twigInsertChild_spec hnew hr.created
      (Nat.pos_of_ne_zero hzero) z.2 z.1
    refine Or.inr ⟨node, ?_, htwig.frame rfl rfl⟩
    have hrelease : ((t.addRef z.1 1).setNode s.fresh node).btnodeRelease env z.1 =
        some (t.setNode s.fresh node) := by
      have hne : z.1 ≠ s.fresh := hr.blank.ne_fresh hrooted.heap
      have hz' : ResidentAt (t.setNode s.fresh node) z.1 :=
        hzt.resident.frame rfl (setNode_heap_ne t hne node)
      exact btnodeRelease_added env hz' hrt.refs
    have hins' : (t.addRef z.1 1).twigInsertChild s.fresh 0 z.2 z.1 = _ := hins
    rw [hgrow, hins', Option.bind_some, hrelease, Option.bind_some]
    rfl

end Btree

end Carthage
