import Carthage.BtreeLevels

/-!
# Linking a node into its level

`__btree_insert_node` on resident trees: the levels from the new node up to the root take
it in at the place of its last key, whatever twigs are split on the way. The nodes below
are not looked at.
-/

namespace Carthage

namespace Btree

variable {K D : Type} {s s' s'' : Btree K D} {E : Prop} {level l x y : ℕ} {k : K}
  {xs ys cs c1 c2 pre post U V A B us mid : List (ℕ × K)} {above above' : List (List (ℕ × K))}
  {z u : ℕ × K}

/-- Where a node with last key `k` belongs under the twigs `ys`: between the children `c1` and
`c2` of the twig `u`. -/
structure Slot (s : Btree K D) (level : ℕ) (pre post ys U : List (ℕ × K)) (u : ℕ × K)
    (V A c1 c2 B : List (ℕ × K)) : Prop where
  twigs : ys = U ++ u :: V
  left : pre = A ++ c1
  right : post = c2 ++ B
  twig : TwigAt True s u.1 (level + 1) (c1 ++ c2)
  before : Groups True s (level + 1) A U
  after : Groups True s (level + 1) B V
  label : ∃ w, (c1 ++ c2).getLast? = some w ∧ w.2 = u.2
  behind : c2 = [] → B = [] ∧ V = []

theorem Slot.groups (h : Slot s level pre post ys U u V A c1 c2 B)
    (hmid : Groups True s' (level + 1) mid us)
    (hothers : ∀ v ∈ U ++ V, ∀ c,
      TwigAt True s v.1 (level + 1) c → TwigAt True s' v.1 (level + 1) c) :
    Groups True s' (level + 1) (A ++ mid ++ B) (U ++ us ++ V) := by
  have hbefore : Groups True s' (level + 1) A U :=
    h.before.mono fun v hv => hothers v (List.mem_append_left V hv)
  have hafter : Groups True s' (level + 1) B V :=
    h.after.mono fun v hv => hothers v (List.mem_append_right U hv)
  exact (hbefore.append hmid).append hafter

theorem neighbour_mem {v : ℕ × K} (hv : post.head?.or pre.getLast? = some v) : v ∈ pre ++ post := by
  cases post with
  | nil => exact List.mem_append_left _ (List.mem_of_getLast? (by simpa using hv))
  | cons w post =>
      obtain rfl : w = v := by simpa using hv
      simp

theorem neighbour_headD (pre post : List (ℕ × K)) (v : ℕ × K) :
    post.head?.or (pre ++ [v]).getLast? = some (post.headD v) := by
  cases post <;> simp

theorem headD_relabelled (post : List (ℕ × K)) (v : ℕ × K) (m : K) :
    (post.headD (v.1, m)).1 = (post.headD v).1 := by
  cases post <;> rfl

theorem Slot.neighbour {v : ℕ × K} (h : Slot s level pre post ys U u V A c1 c2 B)
    (hv : post.head?.or pre.getLast? = some v) : v ∈ c1 ++ c2 := by
  cases c2 with
  | nil =>
      obtain ⟨w, hw, -⟩ := h.label
      obtain ⟨rfl, -⟩ := h.behind rfl
      rw [List.append_nil] at hw
      rw [h.right, h.left, List.getLast?_append, hw] at hv
      obtain rfl : w = v := by simpa using hv
      exact List.mem_append_left _ (List.mem_of_getLast? hw)
  | cons y c2 =>
      rw [h.right] at hv
      obtain rfl : y = v := by simpa using hv
      exact List.mem_append_right _ List.mem_cons_self

theorem groups_two {w v : ℕ × K} {f : ℕ} (hy : TwigAt E s y l c1) (hw : c1.getLast? = some w)
    (hf : TwigAt E s f l c2) (hv : c2.getLast? = some v) :
    Groups E s l (c1 ++ c2) [(y, w.2), (f, v.2)] := by
  have hright : Groups E s l c2 [(f, v.2)] :=
    Grouped.single (P := fun y cs => TwigAt E s y l cs) hf hv
  exact Grouped.cons (P := fun y cs => TwigAt E s y l cs) hy hw hright

variable [LinearOrder K] (env : BtreeEnv K D)

theorem rising_middle (hs : Rising Prod.snd (A ++ mid ++ B)) : Rising Prod.snd mid :=
  (List.pairwise_append.mp (List.pairwise_append.mp hs).1).2.1

theorem rising_cut (hs : Rising Prod.snd (A ++ z :: B)) :
    Rising Prod.snd (A ++ B) ∧ (∀ y ∈ A, y.2 < z.2) ∧ ∀ y ∈ B, z.2 < y.2 := by
  obtain ⟨h1, h2, hcross⟩ := List.pairwise_append.mp hs
  obtain ⟨hB, h2⟩ := List.pairwise_cons.mp h2
  refine ⟨List.pairwise_append.mpr ⟨h1, h2, fun a ha b hb => ?_⟩, fun y hy => ?_, hB⟩
  · exact hcross a ha b (List.mem_cons_of_mem _ hb)
  · exact hcross y hy z List.mem_cons_self

/-! ## Linking -/

/-- A level that took in a node, with the levels above it. -/
structure Linked (s s' : Btree K D) (level : ℕ) (xs : List (ℕ × K))
    (above above' : List (List (ℕ × K))) : Prop where
  upper : Upper s' level xs above'
  below : SameBelow level s s'
  refs : s'.refs = s.refs
  ready : Ready s'
  grown : above'.length = above.length ∨ above'.length = above.length + 1

theorem upper_root {w : ℕ × K} (hroot : s.root = some y) (hy : TwigAt True s y (level + 1) xs)
    (hw : xs.getLast? = some w) (hs : Rising Prod.snd xs)
    (hr : ∀ z ∈ xs, Rooted s level z.1)
    (hh : s.super.height = (level + 2) % 2 ^ 8) : Upper s level xs [[(y, w.2)]] := by
  have hg : Groups True s (level + 1) xs [(y, w.2)] :=
    Grouped.single (P := fun y cs => TwigAt True s y (level + 1) cs) hy hw
  exact ⟨⟨hg, (y, w.2), rfl, hroot⟩, hs, hr, (fun hnil => by cases hnil), hh⟩

theorem insertNode_top {n : ℕ} (h : Upper s level xs []) (hr : Ready s) (hx : Rooted s level x)
    (hk : s.lastKey x = some k) (hfit : level + 1 < 2 ^ 8) :
    btreeInsertNode env (n + 1) s x = (s.btreeGrow env).bind fun r =>
      r.1.elim (some ((1 : ℤ), r.2)) fun twig =>
        (r.2.twigIndex twig k).bind fun i => (r.2.twigInsertChild twig i k x).bind
          fun s₁ => (s₁.btnodeRelease env twig).bind fun s₂ => some (0, s₂) := by
  obtain ⟨z, rfl, hroot⟩ := h.index
  obtain ⟨page, hp, hpl⟩ := hx.page
  have hzroot := h.rooted z List.mem_cons_self
  obtain ⟨place, hlook⟩ := lookup_above env hroot hzroot (by omega) (Nat.lt_succ_self level)
    hr.refs k noPlace
  rw [btreeInsertNode]
  change (s.lastKey x).bind _ = _
  rw [hk, Option.bind_some]
  change (s.page x).bind _ = _
  rw [hp, Option.bind_some, hpl]
  change (s.btreeLookupLevel env k (level + 1) noPlace).bind _ = _
  rw [hlook, Option.bind_some]
  change (s.btreeGrow env).bind _ = _
  congr 1
  funext r
  obtain ⟨_ | twig, s₁⟩ := r
  · rfl
  · rfl

theorem insertNode_grow {n : ℕ} (hg : NodeGranted env s.mallocs)
    (h : Upper s level (pre ++ post) []) (hr : Ready s) (hx : Rooted s level x)
    (hk : s.lastKey x = some k) (hs : Rising Prod.snd (pre ++ (x, k) :: post))
    (hfit : level + 1 < 2 ^ 8) :
    s.super.fanout < 2 ∧ btreeInsertNode env (n + 1) s x = none ∨
    2 ≤ s.super.fanout ∧ ∃ s' above', btreeInsertNode env (n + 1) s x = some (0, s') ∧
      Linked s s' level (pre ++ (x, k) :: post) [] above' ∧ s'.mallocs = s.mallocs + 2 := by
  have hsplit := List.pairwise_append.mp hs
  have hpre : ∀ y ∈ pre, y.2 < k := fun y hy => hsplit.2.2 y hy (x, k) List.mem_cons_self
  have hpost : ∀ y ∈ post, k < y.2 := (List.pairwise_cons.mp hsplit.2.1).1
  have hold := h.rising
  rw [insertNode_top env h hr hx hk hfit]
  obtain ⟨z, hz, hroot⟩ := h.index
  have h' := h
  rw [hz] at h'
  rcases btreeGrow_spec env hg h' hr hfit with ⟨hgrow, hzero⟩ | ⟨node, hgrow, htwig⟩
  · refine Or.inl ⟨hzero.trans_lt Nat.zero_lt_two, ?_⟩
    rw [hgrow, Option.bind_none]
  rw [hgrow, Option.bind_some, Option.elim_some]
  let t := s.regrown env.uninit (level + 1) node
  rw [← hz] at htwig
  have htwig' : TwigIn True (t.addRef s.fresh 1) s.fresh (level + 1) (pre ++ post) :=
    htwig.twigIn.frame rfl rfl
  have hindex : (t.addRef s.fresh 1).twigIndex s.fresh k = _ :=
    twigIndex_spec htwig' hold hpre hpost
  simp only [t] at hindex
  simp only [hindex, Option.bind_some]
  have hlen : (pre ++ post).length = 1 := by rw [hz, List.length_singleton]
  by_cases hfull : s.super.fanout < 2
  · refine Or.inl ⟨hfull, ?_⟩
    have hle : (t.addRef s.fresh 1).super.fanout ≤ (pre ++ post).length :=
      hlen ▸ Nat.le_of_lt_succ hfull
    rw [twigInsertChild_full htwig' hle, Option.bind_none]
  have hlt : (pre ++ post).length < (t.addRef s.fresh 1).super.fanout := by
    rw [hlen]
    exact not_lt.mp hfull
  obtain ⟨node', hins, htwig₁⟩ := twigInsertChild_spec htwig' hr.created hlt k x
  have hrt : Ready t := hr.regrown env.uninit (level + 1) node
  let u := t.setNode s.fresh node'
  have htu : TwigAt True u s.fresh (level + 1) (pre ++ (x, k) :: post) := htwig₁.frame rfl rfl
  have hrelease : (u.addRef s.fresh 1).btnodeRelease env s.fresh = some u :=
    btnodeRelease_added env htu.resident hrt.refs
  have hbelow : SameBelow level s u := by
    refine ⟨rfl, fun y page hp _ => ?_⟩
    have hne : y ≠ s.fresh := hr.blank.ne_fresh fun hno => by simp [Btree.page, hno] at hp
    change Function.update (Function.update (Function.update s.heap _ _) _ _) _ _ y = _
    simp only [Function.update_of_ne hne]
  obtain ⟨w, hw⟩ : ∃ w, (pre ++ (x, k) :: post).getLast? = some w :=
    Option.isSome_iff_exists.mp (by simp)
  have hrooted : ∀ y ∈ pre ++ (x, k) :: post, Rooted s level y.1 := forall_mem_middle h.rooted hx
  refine Or.inr ⟨not_lt.mp hfull, u, [[(s.fresh, w.2)]], ?_, ⟨?_, hbelow, rfl, ?_, Or.inr rfl⟩, rfl⟩
  · rw [hins, Option.bind_some]
    change (btnodeRelease env (u.addRef s.fresh 1) s.fresh).bind _ = _
    rw [hrelease, Option.bind_some]
  · refine upper_root rfl htu hw hs (fun y hy => hbelow.rooted (hrooted y hy)) ?_
    change (s.super.height + 1) % 2 ^ 8 = _
    rw [h.height]
    simp
  · apply hrt.setNode
    simp [t, regrown, setNode_heap_self]

theorem Upper.slot (h : Upper s level (pre ++ post) (ys :: above)) (hr : Ready s)
    (hs : Rising Prod.snd (pre ++ (x, k) :: post)) (hfit : level + above.length + 1 < 2 ^ 8) :
    ∃ U u V A c1 c2 B place, Slot s level pre post ys U u V A c1 c2 B ∧
      place.index = c1.length ∧
      s.btreeLookupLevel env k (level + 1) noPlace = some (some u.1, place, s.addRef u.1 1) := by
  have hsplit := List.pairwise_append.mp hs
  have hpre : ∀ y ∈ pre, y.2 < k := fun y hy => hsplit.2.2 y hy (x, k) List.mem_cons_self
  have hpost : ∀ y ∈ post, ¬ y.2 < k := fun y hy =>
    not_lt.mpr ((List.pairwise_cons.mp hsplit.2.1).1 y hy).le
  obtain ⟨U, u, V, cs, w, place, hloc, hc, hw, hwu, hcs, hidx, -, hlook⟩ :=
    h.index.lookup_twig env h.rising h.pos hfit hr.refs k noPlace
  obtain ⟨A, c, B, w', hxs, hc', hw', -, hA, hB, -, hbefore, hafter⟩ :=
    h.index.1.located h.rising hloc
  obtain rfl := (hc.unique hc').2
  obtain ⟨c1, c2, rfl, h1, h2, hrank⟩ := split_rank hcs k
  have heq : pre ++ post = (A ++ c1) ++ (c2 ++ B) := by rw [hxs]; simp
  obtain ⟨hleft, hright⟩ := split_unique (P := fun y => y.2 < k) heq hpre hpost
    (fun y hy => (List.mem_append.mp hy).elim (hbefore y) (h1 y))
    (fun y hy => (List.mem_append.mp hy).elim (fun hy => not_lt.mpr (h2 y hy))
      fun hy => not_lt.mpr (hafter y hy).1.le)
  refine ⟨U, u, V, A, c1, c2, B, place, ?_, hidx.trans hrank, hlook⟩
  refine ⟨hloc.split, hleft, hright, hc, hA, hB, ⟨w, hw, hwu⟩, ?_⟩
  rintro rfl
  have hV : V = [] := by
    apply hloc.stop.resolve_left
    rw [List.append_nil] at hw
    rw [← hwu]
    exact not_le.mpr (h1 w (List.mem_of_getLast? hw))
  subst hV
  exact ⟨hB.eq_nil, rfl⟩

theorem rename_label {U V : List (ℕ × K)} {u : ℕ × K} (hs : Rising Prod.snd (U ++ u :: V))
    (new : K) : (U ++ u :: V).map (rename u.2 new) = U ++ (u.1, new) :: V := by
  obtain ⟨-, h2, hcross⟩ := List.pairwise_append.mp hs
  obtain ⟨hV, -⟩ := List.pairwise_cons.mp h2
  rw [List.map_append, List.map_cons,
    map_rename_of_ne (fun y hy => (hcross y hy u List.mem_cons_self).ne),
    map_rename_of_ne (fun y hy => (hV y hy).ne'), rename, if_pos rfl]

/-- What an insertion of a child with its separators leaves. -/
structure Inserted (s s' : Btree K D) (level y : ℕ) (cs xs : List (ℕ × K))
    (above : List (List (ℕ × K))) : Prop where
  twig : TwigAt True s' y level cs
  index : Index True s' level xs above
  low : ∀ v page, v ≠ y → s.page v = some page → page.level ≤ level → s'.heap v = s.heap v
  config : s'.config = s.config
  refs : s'.refs = s.refs
  super : s'.super = s.super
  root : s'.root = s.root
  ready : Ready s'
  mallocs : s'.mallocs = s.mallocs

omit [LinearOrder K] in
theorem Inserted.others {v : ℕ} {c : List (ℕ × K)} (h : Inserted s s' level y cs xs above)
    (hv : v ≠ y) (hc : TwigAt True s v level c) : TwigAt True s' v level c := by
  obtain ⟨page, hp, hpl, -⟩ := hc.page_items
  exact hc.frame h.config (h.low v page hv hp hpl.le)

omit [LinearOrder K] in
theorem Inserted.below {c : List (ℕ × K)} (h : Inserted s s' level y cs xs above)
    (hy : TwigAt True s y level c) (hl : l < level) : SameBelow l s s' := by
  refine ⟨h.config, fun v page hp hle => h.low v page ?_ hp (hle.trans hl.le)⟩
  rintro rfl
  obtain ⟨page', hp', hpl, -⟩ := hy.page_items
  obtain rfl := Option.some.inj (hp.symm.trans hp')
  omega

/-- A child is put into a twig, after the separators above were brought in line. -/
theorem insertChild_spec {w : ℕ × K} (h : Index True s level xs above)
    (hs : Rising Prod.snd xs) (hroot : ∀ z ∈ xs, Rooted s level z.1) (hl : 1 ≤ level)
    (hfit : level + above.length < 2 ^ 8) (hr : Ready s)
    (hy : TwigAt True s y level (c1 ++ c2)) (hcs : Rising Prod.snd (c1 ++ c2))
    (h1 : ∀ z ∈ c1, z.2 < k) (h2 : ∀ z ∈ c2, k < z.2) (hw : (c1 ++ c2).getLast? = some w)
    (x : ℕ) : s.twigIndex y k = some c1.length ∧
      ∃ t, s.btreeTwigsInsertUpdate env y c1.length k = some t ∧
        (s.super.fanout ≤ (c1 ++ c2).length ∧ t.twigInsertChild y c1.length k x = none ∨
        ∃ s', t.twigInsertChild y c1.length k x = some s' ∧
          Inserted s s' level y (c1 ++ (x, k) :: c2)
            (xs.map (rename w.2 (if c2 = [] then k else w.2)))
            (above.map (List.map (rename w.2 (if c2 = [] then k else w.2)))) ∧
          Renames True s s' w.2 (if c2 = [] then k else w.2) level above ∧
          (BareAt s y level (c1 ++ c2) → BareAt s' y level (c1 ++ (x, k) :: c2))) := by
  refine ⟨twigIndex_spec hy.twigIn hcs h1 h2, ?_⟩
  obtain ⟨page, hp, hpl, hpi⟩ := hy.page_items
  obtain ⟨t, hupdate, hre, hi, hrenames⟩ := btreeTwigsInsertUpdate_spec env h hs hl hroot hfit
    hr.refs hp hpl (hy.twigIn.lastKey hw) c1.length k
  have hiff : c1.length = page.items ↔ c2 = [] := by
    rw [hpi, List.length_append, ← List.length_eq_zero_iff]
    omega
  simp only [hiff] at hi hrenames
  refine ⟨t, hupdate, ?_⟩
  have hyt : TwigAt True t y level (c1 ++ c2) := hre.twigAt le_rfl hy
  have hsuper := hre.super
  by_cases hfull : s.super.fanout ≤ (c1 ++ c2).length
  · exact Or.inl ⟨hfull, twigInsertChild_full hyt.twigIn (hsuper ▸ hfull) _ _ _⟩
  have hrt := hr.retwig hre
  obtain ⟨node, hins, htwig⟩ := twigInsertChild_spec hyt.twigIn hrt.created
    (hsuper ▸ not_le.mp hfull) k x
  have habove : ∀ v l c, level < l → TwigAt True t v l c → TwigAt True (t.setNode y node) v l c := by
    intro v l c hlt hc
    refine hc.frame rfl (setNode_heap_ne t ?_ node)
    rintro rfl
    have := (hc.unique hyt).1
    omega
  refine Or.inr ⟨t.setNode y node, hins, ⟨htwig, hi.mono rfl habove, fun v page' hv hp' hle => ?_,
    hre.config, hre.refs, hsuper, hre.root, ?_, hre.mallocs⟩, ?_, fun hbare => ?_⟩
  · rw [setNode_heap_ne t hv node, hre.low v page' hp' hle]
  · obtain ⟨node', hn, -⟩ := hyt
    exact hrt.setNode (by rw [hn]; exact Option.some_ne_none _) node
  · exact EachTwig.imp hrenames fun l v hlt hmap c hc => habove v l _ hlt (hmap c hc)
  · exact twigInsertChild_bare (hbare.frame hre.config (hre.low y page hp hpl.le)) hins

namespace Slot

omit [LinearOrder K] in
theorem spare (h : Slot s level pre post ys U u V A c1 c2 B)
    (hroom : (c1 ++ c2).length < s.super.nodeSpace / s.super.twigNeeded) :
    ∀ page, s.page u.1 = some page → page.free ≥ s.super.twigNeeded := by
  intro page hp
  obtain ⟨crc, twig, htp, -, hexact⟩ := h.twig.page
  obtain rfl := Option.some.inj (htp.symm.trans hp)
  exact (twig_spare (hexact trivial)).mpr hroom

omit [LinearOrder K] in
theorem full (h : Slot s level pre post ys U u V A c1 c2 B)
    (hroom : s.super.nodeSpace / s.super.twigNeeded ≤ (c1 ++ c2).length) :
    ∀ page, s.page u.1 = some page → ¬ page.free ≥ s.super.twigNeeded := by
  intro page hp hspare
  obtain ⟨crc, twig, htp, -, hexact⟩ := h.twig.page
  obtain rfl := Option.some.inj (htp.symm.trans hp)
  exact absurd ((twig_spare (hexact trivial)).mp hspare) (not_lt.mpr hroom)

theorem ne (h : Slot s level pre post ys U u V A c1 c2 B) (hg : Groups True s (level + 1) xs ys)
    (hs : Rising Prod.snd xs) : ∀ v ∈ U ++ V, v.1 ≠ u.1 := by
  rw [h.twigs] at hg
  exact hg.names_ne (fun _ _ _ h h' => (h.unique h').2) hs

end Slot

theorem linked_of_groups {ys' : List (ℕ × K)}
    (hxs : ∀ z ∈ xs, Rooted s level z.1) (hs : Rising Prod.snd xs)
    (hbelow : SameBelow level s s') (hg : Groups True s' (level + 1) xs ys')
    (hi : Index True s' (level + 1) ys' above')
    (hh : s'.super.height = (level + 1 + above'.length + 1) % 2 ^ 8) (hr : s'.refs = s.refs)
    (hready : Ready s') (hgrown : above'.length = above.length ∨ above'.length = above.length + 1) :
    Linked s s' level xs (ys :: above) (ys' :: above') := by
  refine ⟨⟨⟨hg, hi⟩, hs, fun z hz => hbelow.rooted (hxs z hz), (fun hnil => by cases hnil), ?_⟩,
    hbelow, hr, hready, ?_⟩
  · rw [hh, List.length_cons]
    congr 1
    omega
  · simp only [List.length_cons]
    omega

/-- The twig has space for the node. -/
theorem insertNode_room {n : ℕ} {place : Place} (h : Upper s level (pre ++ post) (ys :: above))
    (hr : Ready s) (hx : Rooted s level x) (hk : s.lastKey x = some k)
    (hs : Rising Prod.snd (pre ++ (x, k) :: post)) (hfit : level + above.length + 1 < 2 ^ 8)
    (hS : Slot s level pre post ys U u V A c1 c2 B)
    (hlook : s.btreeLookupLevel env k (level + 1) noPlace = some (some u.1, place, s.addRef u.1 1))
    (hfree : ∀ page, s.page u.1 = some page → page.free ≥ s.super.twigNeeded) :
    s.super.fanout ≤ (c1 ++ c2).length ∧ btreeInsertNode env (n + 1) s x = none ∨
    (c1 ++ c2).length < s.super.fanout ∧ ∃ s' above',
      btreeInsertNode env (n + 1) s x = some (0, s') ∧
      Linked s s' level (pre ++ (x, k) :: post) (ys :: above) above' ∧ s'.mallocs = s.mallocs := by
  obtain ⟨page, hp, hpl⟩ := hx.page
  obtain ⟨crc, twig, htp, -, hexact⟩ := hS.twig.page
  let tpage : Page K := ⟨crc, level + 1, .twig twig⟩
  obtain ⟨w, hw, hwu⟩ := hS.label
  obtain ⟨hg, hi⟩ := h.index
  have hup := h.up
  let t := s.addRef u.1 1
  have hrt : Ready t := hr.addRef (ResidentAt.heap hS.twig.resident)
  have ht : Upper t (level + 1) ys above := hup.same (fun l => (SameBelow.refl l s).addRef _ _) rfl rfl
  have hchild : TwigAt True t u.1 (level + 1) (c1 ++ c2) := hS.twig.frame rfl rfl
  have hall : pre ++ (x, k) :: post = A ++ (c1 ++ (x, k) :: c2) ++ B := by
    rw [hS.left, hS.right]
    simp
  obtain ⟨hcs, h1, h2⟩ := rising_cut (rising_middle (hall ▸ hs))
  obtain ⟨hindex, t₁, hupdate, hins⟩ := insertChild_spec env ht.index ht.rising ht.rooted ht.pos
    (by omega) hrt hchild hcs h1 h2 hw x
  have htp' : t.page u.1 = some tpage := htp
  have hfree' : tpage.free ≥ t.super.twigNeeded := hfree tpage htp
  have hstep : btreeInsertNode env (n + 1) s x =
      (t₁.twigInsertChild u.1 c1.length k x).bind fun s₁ =>
        (s₁.btnodeRelease env u.1).bind fun s₂ => some (0, s₂) := by
    rw [btreeInsertNode]
    change (s.lastKey x).bind _ = _
    rw [hk, Option.bind_some]
    change (s.page x).bind _ = _
    rw [hp, Option.bind_some, hpl]
    change (s.btreeLookupLevel env k (level + 1) noPlace).bind _ = _
    rw [hlook, Option.bind_some]
    change (t.page u.1).bind _ = _
    rw [htp', Option.bind_some, if_pos hfree']
    change (t.twigIndex u.1 k).bind _ = _
    rw [hindex, Option.bind_some]
    change (t.btreeTwigsInsertUpdate env u.1 c1.length k).bind _ = _
    rw [hupdate, Option.bind_some]
    rfl
  rw [hstep]
  rcases hins with ⟨hfull, hnone⟩ | ⟨s', hins, hI, -⟩
  · exact Or.inl ⟨hfull, by rw [hnone, Option.bind_none]⟩
  right
  have hlt : (c1 ++ c2).length < s.super.fanout := by
    have hwithin := hI.twig.within
    have hcount : (c1 ++ (x, k) :: c2).length = (c1 ++ c2).length + 1 := by simp; omega
    rw [hcount, hI.super] at hwithin
    exact hwithin
  obtain ⟨hrelease, hrefs⟩ := btnodeRelease_counted env hI.twig.resident hr.refs hI.refs
  obtain ⟨w', hw', hlabel⟩ := last_label hw x (k := k)
  have hys : ys.map (rename w.2 w'.2) = U ++ [(u.1, w'.2)] ++ V := by
    rw [hS.twigs, hwu, rename_label (hS.twigs ▸ hup.rising)]
    simp
  have hix := hI.index
  rw [← hlabel, hys] at hix
  have hgroups : Groups True s' (level + 1) (pre ++ (x, k) :: post) (U ++ [(u.1, w'.2)] ++ V) := by
    rw [hall]
    apply hS.groups
    · exact Grouped.single (P := fun y cs => TwigAt True s' y (level + 1) cs) hI.twig hw'
    · exact fun v hv c hc => hI.others (hS.ne hg h.rising v hv) (hc.frame rfl rfl)
  refine ⟨hlt, s'.addRef u.1 (-1),
    (U ++ [(u.1, w'.2)] ++ V) :: above.map (List.map (rename w.2 w'.2)), ?_, ?_, hI.mallocs⟩
  · rw [hins, Option.bind_some, hrelease, Option.bind_some]
  · have hbelow := hI.below hchild (Nat.lt_succ_self level)
    have hlow : SameBelow level s s' := ⟨hbelow.config, hbelow.low⟩
    refine linked_of_groups (forall_mem_middle h.rooted hx) hs (hlow.addRef _ _)
      (hgroups.mono fun v _ c hc => hc.frame rfl rfl)
      (hix.mono rfl fun v _ c _ hc => hc.frame rfl rfl) ?_ hrefs ?_ ?_
    · change s'.super.height = _
      rw [hI.super, List.length_map]
      exact hup.height
    · exact hI.ready.release (ResidentAt.heap hI.twig.resident) (hrefs ▸ hr.refs)
    · exact Or.inl (List.length_map _)

/-! ## The nodes that this takes -/

/-- To link a node beside the node `v` of a level, `r` nodes are asked for: one for each full twig
from the one above `v` on, and one for a new root when all are full. -/
def LinkRequests (s : Btree K D) : ℕ → List (List ℕ) → ℕ → ℕ → Prop
  | _, [], _, r => r = 1
  | level, ys :: above, v, r => ∃ U u V cs, ys = U ++ u :: V ∧ TwigAt True s u (level + 1) cs ∧
      v ∈ cs.map Prod.fst ∧
      (cs.length < s.super.nodeSpace / s.super.twigNeeded ∧ r = 0 ∨
        s.super.nodeSpace / s.super.twigNeeded ≤ cs.length ∧
          ∃ r', r = r' + 1 ∧ LinkRequests s (level + 1) above (V.headD u) r')

omit [LinearOrder K] in
theorem LinkRequests.transfer {addresses : List (List ℕ)} {v r : ℕ} {t : Btree K D}
    (h : LinkRequests s level addresses v r)
    (hgeometry : t.super.toGeometry = s.super.toGeometry)
    (htwigs : EachTwig (fun l y => ∀ cs, TwigAt True s y l cs →
      ∃ cs', TwigAt True t y l cs' ∧ cs'.map Prod.fst = cs.map Prod.fst) level addresses) :
    LinkRequests t level addresses v r := by
  induction addresses generalizing level v r with
  | nil => exact h
  | cons ys above ih =>
      obtain ⟨U, u, V, cs, hys, hc, hv, hcount⟩ := h
      obtain ⟨cs', hc', hnames⟩ := htwigs.1 u (by simp [hys]) cs hc
      have hlength : cs'.length = cs.length := by simpa using congrArg List.length hnames
      refine ⟨U, u, V, cs', hys, hc', hnames ▸ hv, ?_⟩
      rw [hgeometry, hlength]
      refine hcount.imp id (And.imp id ?_)
      rintro ⟨r', hr, hrest⟩
      exact ⟨r', hr, ih hrest htwigs.2⟩

omit [LinearOrder K] in
theorem LinkRequests.same {addresses : List (List ℕ)} {v r : ℕ} {t : Btree K D}
    (h : LinkRequests s level addresses v r) (hbelow : ∀ l, SameBelow l s t) :
    LinkRequests t level addresses v r :=
  h.transfer (congrArg Config.geometry (hbelow 0).config)
    (EachTwig.of_all addresses fun l _ _ cs hc => ⟨cs, (hbelow l).twigAt le_rfl hc, rfl⟩)

omit [LinearOrder K] in
theorem headD_names (V : List (ℕ × K)) (u : ℕ × K) :
    (V.map Prod.fst).headD u.1 = (V.headD u).1 := by cases V <;> rfl

omit [LinearOrder K] in
theorem Index.requests {v : ℕ × K} (h : Index True s level xs above) (hv : v ∈ xs) :
    ∃ r, LinkRequests s level (names above) v.1 r := by
  induction above generalizing level xs v with
  | nil => exact ⟨1, rfl⟩
  | cons ys above ih =>
      obtain ⟨hg, hi⟩ := h
      obtain ⟨u, hu, cs, hc, hvc⟩ := hg.covers hv
      obtain ⟨U, V, hys⟩ := List.append_of_mem hu
      have hnames : ys.map Prod.fst = U.map Prod.fst ++ u.1 :: V.map Prod.fst := by simp [hys]
      by_cases hroom : cs.length < s.super.nodeSpace / s.super.twigNeeded
      · exact ⟨0, _, u.1, _, cs, hnames, hc, List.mem_map_of_mem hvc, Or.inl ⟨hroom, rfl⟩⟩
      · have hnext : V.headD u ∈ ys := by
          rw [hys]
          cases V <;> simp
        obtain ⟨r, hr⟩ := ih hi hnext
        refine ⟨r + 1, _, u.1, _, cs, hnames, hc, List.mem_map_of_mem hvc,
          Or.inr ⟨not_lt.mp hroom, r, rfl, ?_⟩⟩
        rwa [headD_names]

omit [LinearOrder K] in
theorem Index.granted {v : ℕ × K} {env : BtreeEnv K D} (hg : ∀ n, env.granted n = true)
    (h : Index True s level xs above) (hv : v ∈ xs) (m : ℕ) :
    ∃ r, LinkRequests s level (names above) v.1 r ∧ NodesGranted env m r := by
  obtain ⟨r, hr⟩ := h.requests hv
  exact ⟨r, hr, fun _ _ => ⟨hg _, hg _⟩⟩

theorem Upper.parent {v : ℕ × K} (h : Upper s level xs (ys :: above))
    (hone : ∀ v ∈ xs, ∀ w ∈ xs, v.1 = w.1 → v = w) (hu : u ∈ ys)
    (hc : TwigAt True s u.1 (level + 1) cs) (hv : v ∈ cs) {u' : ℕ × K} {cs' : List (ℕ × K)}
    (hu' : u' ∈ ys) (hc' : TwigAt False s u'.1 (level + 1) cs') (hv' : v.1 ∈ cs'.map Prod.fst) :
    u' = u ∧ cs' = cs := by
  obtain ⟨hg, hi⟩ := h.index
  obtain ⟨d, w, hd, -, -, hsub⟩ := hg.group hu
  obtain rfl := (hd.unique hc).2
  obtain ⟨d', w', hd', -, -, hsub'⟩ := hg.group hu'
  obtain rfl := (hd'.unique hc').2
  obtain ⟨v', hmem, hname⟩ := List.mem_map.mp hv'
  obtain rfl := hone v' (hsub' v' hmem) v (hsub v hv) hname
  obtain rfl := hg.group_unique (fun _ _ _ h h' => (h.unique h').2) h.rising hu' hu hd' hd hmem hv
  exact ⟨rfl, (hd'.unique hd).2⟩

theorem Slot.requests {v : ℕ × K} {r : ℕ} (hS : Slot s level pre post ys U u V A c1 c2 B)
    (h : Upper s level (pre ++ post) (ys :: above))
    (hone : ∀ v ∈ pre ++ post, ∀ w ∈ pre ++ post, v.1 = w.1 → v = w)
    (hv : post.head?.or pre.getLast? = some v)
    (hreq : LinkRequests s level (names (ys :: above)) v.1 r) :
    (c1 ++ c2).length < s.super.nodeSpace / s.super.twigNeeded ∧ r = 0 ∨
    s.super.nodeSpace / s.super.twigNeeded ≤ (c1 ++ c2).length ∧
      ∃ r', r = r' + 1 ∧ LinkRequests s (level + 1) (names above) (V.headD u).1 r' := by
  obtain ⟨U', u', V', cs, hys, hc, hvc, hcount⟩ := hreq
  have hu' : u' ∈ ys.map Prod.fst := by
    rw [hys]
    simp
  obtain ⟨w, hw, rfl⟩ := List.mem_map.mp hu'
  have hu : u ∈ ys := by simp [hS.twigs]
  obtain ⟨rfl, rfl⟩ := h.parent hone hu hS.twig (hS.neighbour hv) hw hc.weaken hvc
  have hne := hS.ne h.index.1 h.rising
  have hnames : U.map Prod.fst ++ w.1 :: V.map Prod.fst = U' ++ w.1 :: V' := by
    rw [← hys, hS.twigs, List.map_append, List.map_cons]
  have hmem : ∀ {W : List (ℕ × K)}, (∀ v ∈ W, v ∈ U ++ V) → w.1 ∉ W.map Prod.fst := fun hW hno => by
    obtain ⟨v, hv, hvw⟩ := List.mem_map.mp hno
    exact hne v (hW v hv) hvw
  obtain ⟨-, -, rfl⟩ := (List.append_cons_inj_of_notMem
    (hmem fun v hv => List.mem_append_left V hv)
    (hmem fun v hv => List.mem_append_right U hv)).mp hnames
  refine hcount.imp id (And.imp id ?_)
  rintro ⟨r', hr, hrest⟩
  rw [headD_names] at hrest
  exact ⟨r', hr, hrest⟩

/-- Nodes can be linked under `m` levels of twigs when the nodes that this takes are granted. -/
def Links (m : ℕ) : Prop :=
  ∀ (n level x r : ℕ) (k : K) (pre post : List (ℕ × K)) (above : List (List (ℕ × K))) (v : ℕ × K)
    (s : Btree K D), above.length = m → m < n → Upper s level (pre ++ post) above → Ready s →
    Rooted s level x → s.lastKey x = some k → Rising Prod.snd (pre ++ (x, k) :: post) →
    level + above.length + 1 < 2 ^ 8 →
    (∀ v ∈ pre ++ post, ∀ w ∈ pre ++ post, v.1 = w.1 → v = w) →
    post.head?.or pre.getLast? = some v → LinkRequests s level (names above) v.1 r →
    NodesGranted env s.mallocs r →
    btreeInsertNode env n s x = none ∧ s.super.Cut ∨
    ∃ s' above', btreeInsertNode env n s x = some (0, s') ∧
      Linked s s' level (pre ++ (x, k) :: post) above above' ∧ s'.mallocs = s.mallocs + 2 * r

/-- What a twig was split into is linked, and the references to it are given back. -/
theorem insertNode_finish {f n r : ℕ} {m : K} {v : ℕ × K} {t : Btree K D}
    (hlinks : Links (D := D) env above.length)
    (hn : above.length < n) (hfit : level + 1 + above.length + 1 < 2 ^ 8) (hl : 1 ≤ level)
    (hxs : ∀ z ∈ xs, Rooted s level z.1) (hs : Rising Prod.snd xs)
    (hr : 0 ≤ s.refs) (hrt : Ready t) (hrefs : t.refs = ((s.addRef y 1).addRef f 1).refs)
    (hbelow : SameBelow level s t) (hg : Groups True t (level + 1) xs (U ++ (f, m) :: V))
    (hi : Index True t (level + 1) (U ++ V) above') (hlen : above'.length = above.length)
    (hh : t.super.height = (level + 1 + above.length + 1) % 2 ^ 8)
    (hy : Rooted t (level + 1) y) (hv : V.head?.or U.getLast? = some v)
    (hreq : LinkRequests t (level + 1) (names above') v.1 r) (hgr : NodesGranted env t.mallocs r)
    (undo : Btree K D → Option (ℤ × Btree K D))
    (hstep : btreeInsertNode env (n + 1) s x = (btreeInsertNode env n t f).bind fun r =>
      if r.1 ≠ 0 then undo r.2 else (r.2.btnodeRelease env f).bind fun s₁ =>
        (s₁.btnodeRelease env y).bind fun s₂ => some (0, s₂)) :
    btreeInsertNode env (n + 1) s x = none ∧ s.super.Cut ∨
    ∃ s' above'', btreeInsertNode env (n + 1) s x = some (0, s') ∧
      Linked s s' level xs (ys :: above) above'' ∧ s'.mallocs = t.mallocs + 2 * r := by
  rw [hstep]
  obtain ⟨hrise, -, -⟩ := rising_cut (hg.rising hs)
  have hxt : ∀ z ∈ xs, Rooted t level z.1 := fun z hz => hbelow.rooted (hxs z hz)
  have hroots := hg.rooted hl hxt
  have hsub : ∀ z ∈ U ++ V, z ∈ U ++ (f, m) :: V := fun z hz => by
    rcases List.mem_append.mp hz with hz | hz
    · exact List.mem_append_left _ hz
    · exact List.mem_append_right _ (List.mem_cons_of_mem _ hz)
  have hf : (f, m) ∈ U ++ (f, m) :: V := by simp
  have hkeys : ∀ z ∈ U ++ V, t.lastKey z.1 = some z.2 := fun z hz => hg.keys z (hsub z hz)
  have hup : Upper t (level + 1) (U ++ V) above' :=
    ⟨hi, hrise, fun z hz => hroots z (hsub z hz), fun _ => hkeys, hlen ▸ hh⟩
  rcases hlinks n (level + 1) f r m U V above' v t hlen hn hup hrt (hroots _ hf) (hg.keys _ hf)
    (hg.rising hs) (hlen ▸ hfit) (label_unique hkeys) hv hreq hgr with
    ⟨hnone, hcut⟩ | ⟨r', above₂, hrun, hL, hmallocs⟩
  · have hgeometry : t.super.toGeometry = s.super.toGeometry :=
      congrArg Config.geometry hbelow.config
    exact Or.inl ⟨by rw [hnone, Option.bind_none], hgeometry ▸ hcut⟩
  right
  have hfr : Rooted r' (level + 1) f := hL.below.rooted (hroots _ hf)
  have hyr : Rooted r' (level + 1) y := hL.below.rooted hy
  obtain ⟨hrel₁, hrefs₁⟩ := btnodeRelease_counted env (s := s.addRef y 1) hfr.resident
    (addRef_nonneg hr y) (hL.refs.trans hrefs)
  have hyr₁ : ResidentAt (r'.addRef f (-1)) y := hyr.resident.frame rfl rfl
  obtain ⟨hrel₂, hrefs₂⟩ := btnodeRelease_counted env hyr₁ hr hrefs₁
  have hready₁ : Ready (r'.addRef f (-1)) := by
    apply hL.ready.release hfr.heap
    rw [hrefs₁]
    exact addRef_nonneg hr y
  have hready₂ : Ready ((r'.addRef f (-1)).addRef y (-1)) :=
    hready₁.release hyr₁.heap (hrefs₂ ▸ hr)
  refine ⟨(r'.addRef f (-1)).addRef y (-1), (U ++ (f, m) :: V) :: above₂, ?_, ?_, hmallocs⟩
  · rw [hrun, Option.bind_some, if_neg (not_not.mpr rfl), hrel₁, Option.bind_some, hrel₂,
      Option.bind_some]
  · have hlow := (hbelow.trans (hL.below.mono (Nat.le_succ level)))
    refine linked_of_groups hxs hs ((hlow.addRef _ _).addRef _ _)
      (hg.mono fun v _ c hc => (hL.below.twigAt le_rfl hc).frame rfl rfl)
      (hL.upper.index.mono rfl fun v _ c _ hc => hc.frame rfl rfl) hL.upper.height hrefs₂ hready₂ ?_
    rw [← hlen]
    exact hL.grown

/-! ## The node comes behind all others -/

/-- A twig of its own was allocated for the node `x`; the twig `y` is referenced. -/
structure Topped (s t : Btree K D) (level x y : ℕ) (k : K) : Prop where
  twig : TwigAt True t s.fresh (level + 1) [(x, k)]
  same : ∀ l, SameBelow l s t
  root : t.root = s.root
  height : t.super.height = s.super.height
  refs : t.refs = ((s.addRef y 1).addRef s.fresh 1).refs
  ready : Ready t
  mallocs : t.mallocs = s.mallocs + 2

theorem insertNode_full {n : ℕ} {place : Place} (hx : Rooted s level x) (hk : s.lastKey x = some k)
    (hS : Slot s level pre post ys U u V A c1 [] B) (hplace : place.index = c1.length)
    (hlook : s.btreeLookupLevel env k (level + 1) noPlace = some (some u.1, place, s.addRef u.1 1))
    (hfree : ∀ page, s.page u.1 = some page → ¬ page.free ≥ s.super.twigNeeded) :
    btreeInsertNode env (n + 1) s x =
      let r := (s.addRef u.1 1).btnodeAlloc env (level + 1)
      r.1.elim ((r.2.btnodeRelease env u.1).bind fun s₁ => some ((4 : ℤ), s₁)) fun f =>
        (r.2.twigInsertChild f 0 k x).bind fun s₁ => (btreeInsertNode env n s₁ f).bind fun r =>
          if r.1 ≠ 0 then (r.2.btnodeRelease env u.1).bind fun s₂ =>
            (s₂.btnodeFree env f).bind fun s₃ => some (5, s₃)
          else (r.2.btnodeRelease env f).bind fun s₂ =>
            (s₂.btnodeRelease env u.1).bind fun s₃ => some (0, s₃) := by
  obtain ⟨page, hp, hpl⟩ := hx.page
  obtain ⟨crc, twig, htp, hkeys, -⟩ := hS.twig.page
  let tpage : Page K := ⟨crc, level + 1, .twig twig⟩
  have htp' : (s.addRef u.1 1).page u.1 = some tpage := htp
  have hfree' : ¬ tpage.free ≥ (s.addRef u.1 1).super.twigNeeded := hfree tpage htp
  have hitems : ¬ place.index < tpage.items := by
    have hlen : twig.entries.length = c1.length := by simpa using congrArg List.length hkeys
    exact not_lt.mpr (hlen.trans hplace.symm).le
  rw [btreeInsertNode]
  change (s.lastKey x).bind _ = _
  rw [hk, Option.bind_some]
  change (s.page x).bind _ = _
  rw [hp, Option.bind_some, hpl]
  change (s.btreeLookupLevel env k (level + 1) noPlace).bind _ = _
  rw [hlook, Option.bind_some]
  change ((s.addRef u.1 1).page u.1).bind _ = _
  rw [htp', Option.bind_some, if_neg hfree', if_neg hitems]
  obtain ⟨r, t, halloc⟩ : ∃ r t, (s.addRef u.1 1).btnodeAlloc env (level + 1) = (r, t) := ⟨_, _, rfl⟩
  rw [halloc]
  cases r with
  | none => rfl
  | some f => rfl

theorem insertNode_behind {n : ℕ} {place : Place} (hg : NodeGranted env s.mallocs) (hl : 1 ≤ level)
    (hr : Ready s) (hx : Rooted s level x) (hk : s.lastKey x = some k)
    (hS : Slot s level pre post ys U u V A c1 [] B) (hplace : place.index = c1.length)
    (hlook : s.btreeLookupLevel env k (level + 1) noPlace = some (some u.1, place, s.addRef u.1 1))
    (hfree : ∀ page, s.page u.1 = some page → ¬ page.free ≥ s.super.twigNeeded) :
    ∃ t, Topped s t level x u.1 k ∧ btreeInsertNode env (n + 1) s x =
      (btreeInsertNode env n t s.fresh).bind fun r =>
        if r.1 ≠ 0 then (r.2.btnodeRelease env u.1).bind fun s₁ =>
          (s₁.btnodeFree env s.fresh).bind fun s₂ => some (5, s₂)
        else (r.2.btnodeRelease env s.fresh).bind fun s₁ =>
          (s₁.btnodeRelease env u.1).bind fun s₂ => some (0, s₂) := by
  obtain ⟨crc, twig, htp, hkeys, hexact⟩ := hS.twig.page
  let t₀ := s.addRef u.1 1
  have hrt₀ : Ready t₀ := hr.addRef (ResidentAt.heap hS.twig.resident)
  let t₁ := (t₀.allocated env.uninit (level + 1)).addRef s.fresh 1
  have hrt₁ : Ready t₁ := hrt₀.alloc env.uninit (level + 1)
  have hbelow₁ : ∀ l, SameBelow l s t₁ := fun l =>
    ((SameBelow.refl l s).addRef u.1 1).trans ((SameBelow.allocated hrt₀.blank).addRef _ _)
  have hnew : TwigIn True t₁ s.fresh (level + 1) ([] ++ []) :=
    (twigIn_allocated (by omega) (fanout_lt hr.created)).frame rfl rfl
  obtain ⟨hfull, htwo⟩ :=
    twig_full hr.created (hexact trivial) hS.twig.within (hfree ⟨crc, level + 1, .twig twig⟩ htp)
  have hspare : ([] ++ [] : List (ℕ × K)).length < t₁.super.fanout :=
    Nat.lt_of_lt_of_le Nat.zero_lt_two (htwo.trans hfull.le)
  obtain ⟨node, hins, htwig⟩ := twigInsertChild_spec hnew hrt₁.created hspare k x
  have hfresh : s.heap s.fresh = none := (hr.blank _ le_rfl).1
  refine ⟨t₁.setNode s.fresh node, ⟨htwig, fun l => (hbelow₁ l).setNode hfresh node, rfl, rfl, rfl,
    hrt₁.setNode (allocated_heap_fresh t₀ env.uninit (level + 1)) node, rfl⟩, ?_⟩
  have halloc : (s.addRef u.1 1).btnodeAlloc env (level + 1) = (some s.fresh, t₁) :=
    btnodeAlloc_granted env (s := t₀) hg hrt₀.blank (level + 1)
  rw [insertNode_full env hx hk hS hplace hlook hfree, halloc]
  change (t₁.twigInsertChild s.fresh ([] : List (ℕ × K)).length k x).bind _ = _
  rw [hins, Option.bind_some]

/-- The last twig is full, and the node comes behind it: it gets a twig of its own. -/
theorem insertNode_append {n r : ℕ} {place : Place} (hlinks : Links (D := D) env above.length)
    (hn : above.length < n) (h : Upper s level (pre ++ post) (ys :: above)) (hr : Ready s)
    (hx : Rooted s level x) (hk : s.lastKey x = some k)
    (hs : Rising Prod.snd (pre ++ (x, k) :: post)) (hfit : level + 1 + above.length + 1 < 2 ^ 8)
    (hS : Slot s level pre post ys U u V A c1 [] B) (hplace : place.index = c1.length)
    (hlook : s.btreeLookupLevel env k (level + 1) noPlace = some (some u.1, place, s.addRef u.1 1))
    (hfree : ∀ page, s.page u.1 = some page → ¬ page.free ≥ s.super.twigNeeded)
    (hreq : LinkRequests s (level + 1) (names above) (V.headD u).1 r)
    (hg : NodesGranted env s.mallocs (r + 1)) :
    btreeInsertNode env (n + 1) s x = none ∧ s.super.Cut ∨
    ∃ s' above', btreeInsertNode env (n + 1) s x = some (0, s') ∧
      Linked s s' level (pre ++ (x, k) :: post) (ys :: above) above' ∧
      s'.mallocs = s.mallocs + 2 * (r + 1) := by
  obtain ⟨hfirst, hrest⟩ := nodesGranted_succ.mp hg
  obtain ⟨rfl, rfl⟩ := hS.behind rfl
  obtain ⟨t, hT, hstep⟩ :=
    insertNode_behind env (n := n) hfirst h.pos hr hx hk hS hplace hlook hfree
  have hpost : post = [] := hS.right
  subst hpost
  obtain ⟨hgroups, -⟩ := h.index
  have hold : Groups True t (level + 1) pre ys := by
    rw [List.append_nil] at hgroups
    exact hgroups.mono fun v _ c hc => (hT.same (level + 1)).twigAt le_rfl hc
  have hgt : Groups True t (level + 1) (pre ++ [(x, k)]) (ys ++ (s.fresh, k) :: []) :=
    hold.append (Grouped.single (P := fun y cs => TwigAt True t y (level + 1) cs) hT.twig rfl)
  have hup := h.up.same hT.same hT.root hT.height
  have hi : Index True t (level + 1) (ys ++ []) above := by
    rw [List.append_nil]
    exact hup.index
  have hu : u ∈ ys := by simp [hS.twigs]
  have hlast : ([] : List (ℕ × K)).head?.or ys.getLast? = some u := by simp [hS.twigs]
  have hcount : s.mallocs + 2 * (r + 1) = t.mallocs + 2 * r := by
    rw [hT.mallocs]
    omega
  let undo : Btree K D → Option (ℤ × Btree K D) := fun r =>
    (r.btnodeRelease env u.1).bind fun s₁ => (s₁.btnodeFree env s.fresh).bind fun s₂ => some (5, s₂)
  rw [hcount]
  exact insertNode_finish env hlinks hn hfit h.pos (forall_mem_middle h.rooted hx) hs hr.refs
    hT.ready hT.refs (hT.same level) hgt hi rfl hup.height (hup.rooted u hu) hlast
    (hreq.same hT.same) (hT.mallocs ▸ hrest) undo hstep

theorem halves {cl cr : List (ℕ × K)} (heq : cl ++ z :: cr = c1 ++ c2)
    (h1 : ∀ y ∈ c1, y.2 < k) (h2 : ∀ y ∈ c2, k < y.2) :
    (k < z.2 ∧ ∃ d, cl = c1 ++ d ∧ c2 = d ++ z :: cr) ∨
    (¬ k < z.2 ∧ ∃ d, c1 = cl ++ d ∧ z :: cr = d ++ c2) := by
  by_cases hkz : k < z.2
  · refine Or.inl ⟨hkz, ?_⟩
    rcases List.append_eq_append_iff.mp heq with ⟨d, hd, hd'⟩ | ⟨d, hd, hd'⟩
    · cases d with
      | nil => exact ⟨[], by simpa using hd.symm, by simpa using hd'.symm⟩
      | cons y d =>
          obtain ⟨rfl, -⟩ := List.cons.inj hd'
          exact absurd (h1 z (by simp [hd])) (not_lt.mpr hkz.le)
    · exact ⟨d, hd, hd'⟩
  · refine Or.inr ⟨hkz, ?_⟩
    rcases List.append_eq_append_iff.mp heq with ⟨d, hd, hd'⟩ | ⟨d, hd, hd'⟩
    · exact ⟨d, hd, hd'⟩
    · exact absurd (h2 z (by simp [hd'])) hkz

/-- What the insertion into one of two halves leaves: the label of the lower half becomes `m`. -/
structure Halved (s s' : Btree K D) (level y f : ℕ) (cs us xs : List (ℕ × K)) (old m : K)
    (above : List (List (ℕ × K))) : Prop where
  groups : Groups True s' (level + 1) cs us
  index : Index True s' (level + 1) xs (above.map (List.map (rename old m)))
  renames : Renames True s s' old m (level + 1) above
  others : ∀ v c, v ≠ y → v ≠ f → TwigAt True s v (level + 1) c → TwigAt True s' v (level + 1) c
  below : SameBelow level s s'
  refs : s'.refs = s.refs
  super : s'.super = s.super
  root : s'.root = s.root
  ready : Ready s'
  mallocs : s'.mallocs = s.mallocs

theorem insertHalf_spec {f : ℕ} {wl wr : ℕ × K} {cl cr : List (ℕ × K)}
    (h : Index True s (level + 1) (U ++ (y, wl.2) :: V) above)
    (hs : Rising Prod.snd (U ++ (y, wl.2) :: V))
    (hroot : ∀ v ∈ U ++ (y, wl.2) :: V, Rooted s (level + 1) v.1)
    (hfit : level + 1 + above.length < 2 ^ 8) (hr : Ready s) (hyf : y ≠ f)
    (hy : TwigAt True s y (level + 1) cl) (hf : TwigAt True s f (level + 1) (z :: cr))
    (hby : BareAt s y (level + 1) cl) (hbf : BareAt s f (level + 1) (z :: cr))
    (hwl : cl.getLast? = some wl) (hwr : (z :: cr).getLast? = some wr)
    (heq : cl ++ z :: cr = c1 ++ c2) (hcs : Rising Prod.snd (c1 ++ (x, k) :: c2)) (hc2 : c2 ≠ [])
    (hl : cl.length < s.super.fanout) (hl' : (z :: cr).length < s.super.fanout) :
    ∃ i t s' m, s.twigIndex (if k < z.2 then y else f) k = some i ∧
      s.btreeTwigsInsertUpdate env (if k < z.2 then y else f) i k = some t ∧
      t.twigInsertChild (if k < z.2 then y else f) i k x = some s' ∧
      Undoable s' (level + 1) y f (if k < z.2 then y else f) i (c1 ++ c2) ∧
      Halved s s' level y f (c1 ++ (x, k) :: c2) [(y, m), (f, wr.2)] (U ++ (y, m) :: V) wl.2 m
        above := by
  obtain ⟨hcs', h1, h2⟩ := rising_cut hcs
  have hbare : ∀ {s' v w cs xs above c}, Inserted s s' (level + 1) v cs xs above → w ≠ v →
      BareAt s w (level + 1) c → BareAt s' w (level + 1) c := by
    intro s' v w cs xs above c hI hne hb
    obtain ⟨page, hp, hpl⟩ := hb.page
    exact hb.frame hI.config (hI.low w page hne hp hpl.le)
  rcases halves heq h1 h2 with ⟨hkz, d, rfl, rfl⟩ | ⟨hkz, d, rfl, hcr⟩
  · rw [if_pos hkz]
    have hall : c1 ++ (x, k) :: (d ++ z :: cr) = [] ++ (c1 ++ (x, k) :: d) ++ z :: cr := by simp
    obtain ⟨hcd, -, h2'⟩ := rising_cut (rising_middle (hall ▸ hcs))
    obtain ⟨hindex, t, hupdate, hins⟩ := insertChild_spec env h hs hroot (by omega) hfit hr hy
      hcd h1 h2' hwl x
    obtain ⟨s', hins, hI, hrenames, hput⟩ :=
      hins.resolve_left fun hno => absurd hno.1 (not_le.mpr hl)
    obtain ⟨w', hw', hlabel⟩ := last_label hwl x (k := k)
    have hix := hI.index
    rw [← hlabel, rename_label (u := (y, wl.2)) hs] at hix
    rw [← hlabel] at hrenames
    have hundo : Undoable s' (level + 1) y f y c1.length (c1 ++ d ++ z :: cr) :=
      .left (hput hby) (hbare hI hyf.symm hbf)
    rw [List.append_assoc] at hundo
    refine ⟨_, t, s', w'.2, hindex, hupdate, hins, hundo, ⟨?_, hix, hrenames, ?_,
      hI.below hy (Nat.lt_succ_self level), hI.refs, hI.super, hI.root, hI.ready, hI.mallocs⟩⟩
    · have hright : TwigAt True s' f (level + 1) (z :: cr) := hI.others hyf.symm hf
      rw [hall]
      exact groups_two hI.twig hw' hright hwr
    · exact fun v c hv _ hc => hI.others hv hc
  · rw [if_neg hkz]
    rw [hcr] at hf hbf hwr hl'
    have hall : cl ++ d ++ (x, k) :: c2 = cl ++ (d ++ (x, k) :: c2) ++ [] := by simp
    obtain ⟨hcd, h1', -⟩ := rising_cut (rising_middle (hall ▸ hcs))
    obtain ⟨hindex, t, hupdate, hins⟩ := insertChild_spec env h hs hroot (by omega) hfit hr hf
      hcd h1' h2 hwr x
    obtain ⟨s', hins, hI, hrenames, hput⟩ :=
      hins.resolve_left fun hno => absurd hno.1 (not_le.mpr hl')
    obtain ⟨w', hw', hlabel⟩ := last_label hwr x (k := k)
    have hix := hI.index
    have hself : ∀ (old : K), above.map (List.map (rename old old)) = above := fun old =>
      (List.map_congr_left fun ys _ => map_rename_self old).trans (List.map_id above)
    rw [if_neg hc2, map_rename_self, hself, ← hself wl.2] at hix
    rw [if_neg hc2] at hlabel hrenames
    have hundo : Undoable s' (level + 1) y f f d.length (cl ++ (d ++ c2)) :=
      .right (hbare hI hyf hby) (hput hbf)
    rw [← List.append_assoc] at hundo
    refine ⟨_, t, s', wl.2, hindex, hupdate, hins, hundo, ⟨?_, hix, ?_, ?_,
      hI.below hf (Nat.lt_succ_self level), hI.refs, hI.super, hI.root, hI.ready, hI.mallocs⟩⟩
    · have hleft : TwigAt True s' y (level + 1) cl := hI.others hyf hy
      rw [← hlabel, List.append_assoc]
      exact groups_two hleft hwl hI.twig hw'
    · refine EachTwig.imp hrenames fun l v _ hmap c hc => ?_
      simpa only [map_rename_self] using hmap c hc
    · exact fun v c _ hv hc => hI.others hv hc

theorem insertNode_between {n : ℕ} {place : Place} (hx : Rooted s level x)
    (hk : s.lastKey x = some k) (hS : Slot s level pre post ys U u V A c1 c2 B) (hc2 : c2 ≠ [])
    (hplace : place.index = c1.length)
    (hlook : s.btreeLookupLevel env k (level + 1) noPlace = some (some u.1, place, s.addRef u.1 1))
    (hfree : ∀ page, s.page u.1 = some page → ¬ page.free ≥ s.super.twigNeeded) :
    btreeInsertNode env (n + 1) s x =
      let r := (s.addRef u.1 1).btnodeAlloc env (level + 1)
      r.1.elim ((r.2.btnodeRelease env u.1).bind fun s₁ => some ((2 : ℤ), s₁)) fun f =>
        (r.2.twigSplit u.1 f).bind fun s₁ => (s₁.lastKey f).bind fun last =>
        (s₁.btreeTwigsUpdate env u.1 last (s₁.lastKey u.1)).bind fun s₁ =>
        (s₁.firstKey f).bind fun first =>
        (s₁.twigIndex (if k < first then u.1 else f) k).bind fun i =>
        (s₁.btreeTwigsInsertUpdate env (if k < first then u.1 else f) i k).bind fun s₁ =>
        (s₁.twigInsertChild (if k < first then u.1 else f) i k x).bind fun s₁ =>
        (btreeInsertNode env n s₁ f).bind fun r =>
          if r.1 ≠ 0 then (r.2.twigRemove (if k < first then u.1 else f) i).bind fun s₁ =>
            (s₁.twigMerge u.1 f).bind fun s₂ => (s₂.btnodeRelease env u.1).bind fun s₃ =>
              (s₃.btnodeFree env f).bind fun s₄ => some (3, s₄)
          else (r.2.btnodeRelease env f).bind fun s₁ =>
            (s₁.btnodeRelease env u.1).bind fun s₂ => some (0, s₂) := by
  obtain ⟨page, hp, hpl⟩ := hx.page
  obtain ⟨crc, twig, htp, hkeys, -⟩ := hS.twig.page
  let tpage : Page K := ⟨crc, level + 1, .twig twig⟩
  have htp' : (s.addRef u.1 1).page u.1 = some tpage := htp
  have hfree' : ¬ tpage.free ≥ (s.addRef u.1 1).super.twigNeeded := hfree tpage htp
  have hitems : place.index < tpage.items := by
    have hlen : twig.entries.length = (c1 ++ c2).length := by
      simpa using congrArg List.length hkeys
    have hc2' : 0 < c2.length := List.length_pos_iff.mpr hc2
    have hsum : (c1 ++ c2).length = c1.length + c2.length := List.length_append
    change place.index < twig.entries.length
    omega
  rw [btreeInsertNode]
  change (s.lastKey x).bind _ = _
  rw [hk, Option.bind_some]
  change (s.page x).bind _ = _
  rw [hp, Option.bind_some, hpl]
  change (s.btreeLookupLevel env k (level + 1) noPlace).bind _ = _
  rw [hlook, Option.bind_some]
  change ((s.addRef u.1 1).page u.1).bind _ = _
  rw [htp', Option.bind_some, if_neg hfree', if_pos hitems]
  obtain ⟨r, t, halloc⟩ : ∃ r t, (s.addRef u.1 1).btnodeAlloc env (level + 1) = (r, t) := ⟨_, _, rfl⟩
  rw [halloc]
  cases r with
  | none => rfl
  | some f => rfl

/-- The twig `y` was split for the node `x`: the labels above it are lowered or stay. -/
structure Parted (s t : Btree K D) (level y : ℕ) (xs U V : List (ℕ × K)) (m last : K)
    (above above' : List (List (ℕ × K))) : Prop where
  groups : Groups True t (level + 1) xs ((U ++ [(y, m)]) ++ (s.fresh, last) :: V)
  index : Index True t (level + 1) ((U ++ [(y, m)]) ++ V) above'
  length : above'.length = above.length
  addresses : names above' = names above
  lowered : EachTwig (fun l v => ∀ cs, TwigAt True s v l cs → ∃ ρ : ℕ × K → ℕ × K,
    (∀ c ∈ cs, (ρ c).1 = c.1 ∧ (ρ c).2 ≤ c.2) ∧ TwigAt True t v l (cs.map ρ))
    (level + 1) (names above)
  others : ∀ v c, v ≠ y → TwigAt True s v (level + 1) c → TwigAt True t v (level + 1) c
  below : SameBelow level s t
  refs : t.refs = ((s.addRef y 1).addRef s.fresh 1).refs
  height : t.super.height = s.super.height
  root : t.root = s.root
  ready : Ready t
  mallocs : t.mallocs = s.mallocs + 2

theorem Parted.requests {v r : ℕ} {t : Btree K D} {m last : K}
    (h : Parted s t level y xs U V m last above above')
    (hreq : LinkRequests s (level + 1) (names above) v r) :
    LinkRequests t (level + 1) (names above') v r := by
  rw [h.addresses]
  refine hreq.transfer (congrArg Config.geometry h.below.config) ?_
  refine EachTwig.imp h.lowered fun l v _ hmap cs hc => ?_
  obtain ⟨ρ, hρ, hc'⟩ := hmap cs hc
  refine ⟨_, hc', ?_⟩
  rw [List.map_map]
  exact List.map_congr_left fun c hc => (hρ c hc).1

omit [LinearOrder K] in
theorem Index.labels (h : Index E s level xs above) :
    EachTwig (fun l v => ∀ cs, TwigAt E s v l cs → ∀ c ∈ cs, ∃ z ∈ xs, z.2 = c.2) level
      (names above) := by
  induction above generalizing level xs with
  | nil => trivial
  | cons ys above ih =>
      obtain ⟨hg, hi⟩ := h
      refine ⟨fun v hv cs hc c hmem => ?_, EachTwig.imp (ih hi) fun l v _ hlabel cs hc c hmem => ?_⟩
      · obtain ⟨u, hu, rfl⟩ := List.mem_map.mp hv
        obtain ⟨d, w, hd, -, -, hsub⟩ := hg.group hu
        obtain rfl := (hd.unique hc).2
        exact ⟨c, hsub c hmem, rfl⟩
      · obtain ⟨u, hu, heq⟩ := hlabel cs hc c hmem
        obtain ⟨d, w, -, hw, hwu, hsub⟩ := hg.group hu
        exact ⟨w, hsub w (List.mem_of_getLast? hw), hwu.trans heq⟩

theorem insertNode_parted {n : ℕ} {place : Place} (hg : NodeGranted env s.mallocs)
    (h : Upper s level (pre ++ post) (ys :: above)) (hr : Ready s) (hx : Rooted s level x)
    (hk : s.lastKey x = some k) (hs : Rising Prod.snd (pre ++ (x, k) :: post))
    (hfit : level + 1 + above.length + 1 < 2 ^ 8)
    (hS : Slot s level pre post ys U u V A c1 c2 B) (hc2 : c2 ≠ [])
    (hplace : place.index = c1.length)
    (hlook : s.btreeLookupLevel env k (level + 1) noPlace = some (some u.1, place, s.addRef u.1 1))
    (hfree : ∀ page, s.page u.1 = some page → ¬ page.free ≥ s.super.twigNeeded) :
    ∃ t m above' target i, Parted s t level u.1 (pre ++ (x, k) :: post) U V m u.2 above above' ∧
      Undoable t (level + 1) u.1 s.fresh target i (c1 ++ c2) ∧
      btreeInsertNode env (n + 1) s x = (btreeInsertNode env n t s.fresh).bind fun r =>
        if r.1 ≠ 0 then (r.2.twigRemove target i).bind fun s₁ =>
          (s₁.twigMerge u.1 s.fresh).bind fun s₂ => (s₂.btnodeRelease env u.1).bind fun s₃ =>
            (s₃.btnodeFree env s.fresh).bind fun s₄ => some (3, s₄)
        else (r.2.btnodeRelease env s.fresh).bind fun s₁ =>
          (s₁.btnodeRelease env u.1).bind fun s₂ => some (0, s₂) := by
  obtain ⟨crc, twig, htp, -, hexact⟩ := hS.twig.page
  obtain ⟨hfull, htwo⟩ :=
    twig_full hr.created (hexact trivial) hS.twig.within (hfree ⟨crc, level + 1, .twig twig⟩ htp)
  have hall : pre ++ (x, k) :: post = A ++ (c1 ++ (x, k) :: c2) ++ B := by
    rw [hS.left, hS.right]
    simp
  -- The halves.
  obtain ⟨cl, z, cr, hcut, hhalf, hlne⟩ := exists_halves htwo
  obtain ⟨wl, hwl⟩ : ∃ wl, cl.getLast? = some wl :=
    Option.isSome_iff_exists.mp (by simpa using hlne)
  obtain ⟨wr, hwr, hwu⟩ : ∃ wr, (z :: cr).getLast? = some wr ∧ wr.2 = u.2 := by
    obtain ⟨w, hw, hwu⟩ := hS.label
    refine ⟨w, ?_, hwu⟩
    rw [← hw, hcut, List.getLast?_append_of_ne_nil _ (List.cons_ne_nil z cr)]
  obtain ⟨t₂, hsplit, hT⟩ := splitTwig_spec env.uninit hr h.pos (hcut ▸ hS.twig) hhalf
  obtain ⟨hbarel, hbarer⟩ := hT.bare (hcut ▸ hfull)
  -- The separators are lowered to the left half.
  obtain ⟨hgroups, hi⟩ := h.index
  have hothers : ∀ v ∈ U ++ V, ∀ c, TwigAt True s v.1 (level + 1) c →
      TwigAt True t₂ v.1 (level + 1) c :=
    fun v hv c hc => hT.others v.1 _ c (hS.ne hgroups h.rising v hv) hc
  have hgl : Groups True t₂ (level + 1) (A ++ cl ++ B) (U ++ [(u.1, wl.2)] ++ V) :=
    hS.groups (Grouped.single (P := fun y cs => TwigAt True t₂ y (level + 1) cs) hT.left hwl)
      hothers
  have hold : pre ++ post = A ++ (cl ++ z :: cr) ++ B := by
    rw [hS.left, hS.right, ← hcut]
    simp
  have hsub : (A ++ cl ++ B).Sublist (pre ++ post) := by
    rw [hold]
    exact ((List.sublist_append_left cl (z :: cr)).append_left A).append_right B
  have hrl := hgl.rooted h.pos fun y hy => hT.below.rooted (h.rooted y (hsub.subset hy))
  have hrisel : Rising Prod.snd (U ++ (u.1, wl.2) :: V) := by
    have hrise := hgl.rising (List.Pairwise.sublist hsub h.rising)
    rwa [List.append_assoc, List.singleton_append] at hrise
  have hysU : ∀ y ∈ ys, Rooted t₂ (level + 1) y.1 := by
    rw [hS.twigs]
    refine forall_mem_middle (fun y hy => hrl y ?_) (hrl (u.1, wl.2) (by simp))
    rcases List.mem_append.mp hy with hy | hy <;> simp [hy]
  have hupper : ∀ v l c, level + 1 < l → TwigAt True s v l c → TwigAt True t₂ v l c := by
    intro v l c hlt hc
    refine hT.others v l c ?_ hc
    rintro rfl
    have := (hc.unique hS.twig).1
    omega
  have hi₂ : Index True t₂ (level + 1) ys above := hi.mono hT.root hupper
  obtain ⟨page₂, hp₂, hpl₂, -⟩ := hT.left.page_items
  obtain ⟨t₃, hupdate, hre, hi₃, hrenames⟩ := btreeTwigsUpdate_spec env hi₂ h.up.rising h.up.pos
    hysU (by omega) hT.ready.refs hp₂ hpl₂ (.inl rfl : some wl.2 = some wl.2 ∨ ∀ z ∈ ys, z.2 ≠ u.2)
  rw [hS.twigs, rename_label (hS.twigs ▸ h.up.rising)] at hi₃
  have hleft₃ := hre.twigAt le_rfl hT.left
  have hright₃ := hre.twigAt le_rfl hT.right
  have hne : u.1 ≠ s.fresh := hr.blank.ne_fresh (ResidentAt.heap hS.twig.resident)
  have hlen : (cl ++ z :: cr).length = t₃.super.fanout := by
    have hgeometry : t₃.super.toGeometry = s.super.toGeometry :=
      (congrArg Config.geometry hre.config).trans (congrArg Config.geometry hT.below.config)
    rw [← hcut, hfull, hgeometry]
  rw [List.length_append] at hlen
  have hpos : 0 < cl.length := List.length_pos_iff.mpr hlne
  have hpos' : 0 < (z :: cr).length := Nat.zero_lt_succ _
  have hbare : ∀ {v c}, BareAt t₂ v (level + 1) c → BareAt t₃ v (level + 1) c := by
    intro v c hb
    obtain ⟨page, hp, hpl⟩ := hb.page
    exact hb.frame hre.config (hre.low v page hp hpl.le)
  -- The node goes to one of the halves.
  have hrooted₃ : ∀ v ∈ U ++ (u.1, wl.2) :: V, Rooted t₃ (level + 1) v.1 := fun v hv =>
    hre.rooted le_rfl (hrl v (by simpa using hv))
  obtain ⟨i, t₄, t₅, m, hindex, hinsert, hput, hundo, hH⟩ :=
    insertHalf_spec env hi₃ hrisel hrooted₃ (by rw [List.length_map]; omega)
      (hT.ready.retwig hre) hne hleft₃ hright₃ (hbare hbarel) (hbare hbarer) hwl hwr hcut.symm
      (rising_middle (hall ▸ hs)) hc2 (by omega) (by omega)
  have hothers₅ : ∀ v c, v ≠ u.1 → TwigAt True s v (level + 1) c →
      TwigAt True t₅ v (level + 1) c := fun v c hv hc => by
    have hfresh : v ≠ s.fresh := hr.blank.ne_fresh (ResidentAt.heap hc.resident)
    exact hH.others v c hv hfresh (hre.twigAt le_rfl (hT.others v _ c hv hc))
  have hg₅ : Groups True t₅ (level + 1) (pre ++ (x, k) :: post)
      ((U ++ [(u.1, m)]) ++ (s.fresh, u.2) :: V) := by
    have hgroups₅ := hS.groups hH.groups fun v hv c hc =>
      hothers₅ v.1 c (hS.ne hgroups h.rising v hv) hc
    rw [hall]
    simpa [hwu] using hgroups₅
  have hi₅ := hH.index
  have hmu : m ≤ u.2 := by
    have hrise := hg₅.rising hs
    have hcross := (List.pairwise_append.mp hrise).2.2
    exact (hcross (u.1, m) (by simp) (s.fresh, u.2) List.mem_cons_self).le
  have hlu : wl.2 < u.2 := by
    have hrise := rising_middle (hold ▸ h.rising)
    rw [← hwu]
    exact (List.pairwise_append.mp hrise).2.2 wl (List.mem_of_getLast? hwl) wr
      (List.mem_of_getLast? hwr)
  have hunused : ∀ c ∈ ys, c.2 ≠ wl.2 := by
    obtain ⟨-, hU, hV⟩ := rising_cut hrisel
    rw [hS.twigs]
    refine forall_mem_middle (fun c hc => ?_) hlu.ne'
    exact (List.mem_append.mp hc).elim (fun hc => (hU c hc).ne) fun hc => (hV c hc).ne'
  have hrenames₅ := hH.renames
  rw [Renames, names_rename] at hrenames₅
  refine ⟨t₅, m, (above.map (List.map (rename u.2 wl.2))).map (List.map (rename wl.2 m)), _, i,
    ⟨hg₅, by rwa [List.append_assoc], by rw [List.length_map, List.length_map],
      by rw [names_rename, names_rename], ?_, hothers₅,
    (hT.below.trans (hre.sameBelow.mono (Nat.le_succ level))).trans hH.below,
    hH.refs.trans (hre.refs.trans hT.refs), ?_, hH.root.trans (hre.root.trans hT.root), hH.ready,
    ?_⟩, hundo, ?_⟩
  · refine EachTwig.imp ((hi.labels.and hrenames).and hrenames₅) fun l v hl hmaps cs hc => ?_
    obtain ⟨⟨hlabel, hmap⟩, hmap'⟩ := hmaps
    refine ⟨fun c => rename wl.2 m (rename u.2 wl.2 c), fun c hmem => ⟨rfl, ?_⟩, ?_⟩
    · obtain ⟨w, hw, hwc⟩ := hlabel cs hc c hmem
      by_cases hcu : c.2 = u.2
      · simp only [rename, if_pos hcu, if_true]
        exact hcu ▸ hmu
      · change (rename wl.2 m (rename u.2 wl.2 c)).2 ≤ c.2
        rw [rename_of_ne hcu, rename_of_ne (hwc ▸ hunused w hw)]
    · have hc₅ := hmap' _ (hmap cs (hupper v l cs hl hc))
      rwa [List.map_map] at hc₅
  · rw [hH.super, hre.super, hT.height]
  · rw [hH.mallocs, hre.mallocs, hT.mallocs]
  · have halloc : (s.addRef u.1 1).btnodeAlloc env (level + 1) =
        (some s.fresh, ((s.addRef u.1 1).allocated env.uninit (level + 1)).addRef s.fresh 1) :=
      btnodeAlloc_granted env (s := s.addRef u.1 1) hg
        (hr.addRef (ResidentAt.heap hS.twig.resident)).blank (level + 1)
    rw [insertNode_between env hx hk hS hc2 hplace hlook hfree, halloc]
    change ((((s.addRef u.1 1).allocated env.uninit (level + 1)).addRef s.fresh 1).twigSplit u.1
      s.fresh).bind _ = _
    rw [hsplit, Option.bind_some]
    rw [hT.right.twigIn.lastKey hwr, Option.bind_some, hwu, hT.left.twigIn.lastKey hwl, hupdate,
      Option.bind_some, hright₃.twigIn.firstKey, Option.bind_some, hindex, Option.bind_some, hinsert,
      Option.bind_some, hput, Option.bind_some]

/-- The twig is full, and the node belongs between its children: it is split. -/
theorem insertNode_split {n r : ℕ} {place : Place} (hlinks : Links (D := D) env above.length)
    (hn : above.length < n) (h : Upper s level (pre ++ post) (ys :: above)) (hr : Ready s)
    (hx : Rooted s level x) (hk : s.lastKey x = some k)
    (hs : Rising Prod.snd (pre ++ (x, k) :: post)) (hfit : level + 1 + above.length + 1 < 2 ^ 8)
    (hS : Slot s level pre post ys U u V A c1 c2 B) (hc2 : c2 ≠ [])
    (hplace : place.index = c1.length)
    (hlook : s.btreeLookupLevel env k (level + 1) noPlace = some (some u.1, place, s.addRef u.1 1))
    (hfree : ∀ page, s.page u.1 = some page → ¬ page.free ≥ s.super.twigNeeded)
    (hreq : LinkRequests s (level + 1) (names above) (V.headD u).1 r)
    (hg : NodesGranted env s.mallocs (r + 1)) :
    btreeInsertNode env (n + 1) s x = none ∧ s.super.Cut ∨
    ∃ s' above', btreeInsertNode env (n + 1) s x = some (0, s') ∧
      Linked s s' level (pre ++ (x, k) :: post) (ys :: above) above' ∧
      s'.mallocs = s.mallocs + 2 * (r + 1) := by
  obtain ⟨hfirst, hrest⟩ := nodesGranted_succ.mp hg
  obtain ⟨t, m, above', target, i, hP, -, hstep⟩ :=
    insertNode_parted env (n := n) hfirst h hr hx hk hs hfit hS hc2 hplace hlook hfree
  have hxs : ∀ y ∈ pre ++ (x, k) :: post, Rooted s level y.1 := forall_mem_middle h.rooted hx
  have hu : Rooted t (level + 1) u.1 :=
    hP.groups.rooted h.pos (fun y hy => hP.below.rooted (hxs y hy)) (u.1, m) (by simp)
  have hheight : t.super.height = (level + 1 + above.length + 1) % 2 ^ 8 := by
    rw [hP.height, h.up.height]
  have hcount : s.mallocs + 2 * (r + 1) = t.mallocs + 2 * r := by
    rw [hP.mallocs]
    omega
  let undo : Btree K D → Option (ℤ × Btree K D) := fun r => (r.twigRemove target i).bind fun s₁ =>
    (s₁.twigMerge u.1 s.fresh).bind fun s₂ => (s₂.btnodeRelease env u.1).bind fun s₃ =>
      (s₃.btnodeFree env s.fresh).bind fun s₄ => some (3, s₄)
  rw [hcount]
  exact insertNode_finish env hlinks hn hfit h.pos hxs hs hr.refs hP.ready hP.refs hP.below
    hP.groups hP.index hP.length hheight hu (neighbour_headD _ _ _)
    (headD_relabelled V u m ▸ hP.requests hreq) (hP.mallocs ▸ hrest) undo
    hstep

theorem links (m : ℕ) : Links (D := D) env m := by
  induction m with
  | zero =>
      intro n level x r k pre post above v s hm hn h hr hx hk hs hfit hone hv hreq hg
      obtain rfl := List.length_eq_zero_iff.mp hm
      obtain ⟨n, rfl⟩ : ∃ n', n = n' + 1 := ⟨n - 1, by omega⟩
      obtain rfl : r = 1 := hreq
      rcases insertNode_grow env (nodesGranted_succ.mp hg).1 h hr hx hk hs hfit with
        ⟨hfew, hnone⟩ | ⟨-, hrun⟩
      · exact Or.inl ⟨hnone, fanout_cut hr.created (hfew.trans_le (two_entries hr.created))⟩
      · exact Or.inr hrun
  | succ m ih =>
      intro n level x r k pre post above v s hm hn h hr hx hk hs hfit hone hv hreq hg
      obtain ⟨ys, above, rfl⟩ : ∃ ys above', above = ys :: above' :=
        List.ne_nil_iff_exists_cons.mp (by rintro rfl; simp at hm)
      obtain ⟨n, rfl⟩ : ∃ n', n = n' + 1 := ⟨n - 1, by omega⟩
      simp only [List.length_cons] at hm hfit
      obtain rfl : m = above.length := by omega
      obtain ⟨U, u, V, A, c1, c2, B, place, hS, hplace, hlook⟩ := h.slot env hr hs (by omega)
      rcases hS.requests h hone hv hreq with ⟨hroom, rfl⟩ | ⟨hroom, r, rfl, hrest⟩
      · rcases insertNode_room env h hr hx hk hs (by omega) hS hlook (hS.spare hroom) with
          ⟨hfull, hnone⟩ | ⟨-, hrun⟩
        · exact Or.inl ⟨hnone, fanout_cut hr.created (hfull.trans_lt hroom)⟩
        · exact Or.inr hrun
      · have hfull := hS.full hroom
        by_cases hc2 : c2 = []
        · subst hc2
          exact insertNode_append env ih (by omega) h hr hx hk hs (by omega) hS hplace hlook hfull
            hrest hg
        · exact insertNode_split env ih (by omega) h hr hx hk hs (by omega) hS hc2 hplace hlook
            hfull hrest hg

/-! ## When there is a slot -/

/-- The in-memory array of the twig above the node `v`, if there is one, has a slot for another
node, and a new root has slots for two. This is only in question when `fanout` is cut. -/
def Takes (s : Btree K D) (level : ℕ) (above : List (List (ℕ × K))) (v : ℕ) : Prop :=
  s.super.Cut → 2 ≤ s.super.fanout ∧ ∀ ys ∈ above.head?, ∀ u ∈ ys, ∀ cs,
    TwigAt False s u.1 (level + 1) cs → v ∈ cs.map Prod.fst → cs.length < s.super.fanout

theorem takes_congr {v : ℕ} {t : Btree K D} (h : Index E s level xs above)
    (hgeometry : t.super.toGeometry = s.super.toGeometry)
    (hnames : ∀ y l cs, TwigAt False s y l cs →
      ∃ cs', TwigAt False t y l cs' ∧ cs'.map Prod.fst = cs.map Prod.fst) (old new : K) :
    Takes t level (above.map (List.map (rename old new))) v ↔ Takes s level above v := by
  have hlength : ∀ {cs cs' : List (ℕ × K)}, cs'.map Prod.fst = cs.map Prod.fst →
      cs'.length = cs.length := fun h => by simpa using congrArg List.length h
  unfold Takes
  rw [hgeometry]
  refine imp_congr_right fun _ => and_congr_right fun _ => ?_
  cases above with
  | nil => simp
  | cons ys above =>
      simp only [List.map_cons, List.head?_cons, Option.mem_some_iff, forall_eq', List.forall_mem_map]
      refine forall₂_congr fun u hu => ⟨fun ht cs hc hv => ?_, fun ht cs hc hv => ?_⟩
      · obtain ⟨cs', hc', heq⟩ := hnames _ _ cs hc
        rw [← hlength heq]
        exact ht cs' hc' (heq ▸ hv)
      · obtain ⟨d, w, hd, -⟩ := h.1.group hu
        obtain ⟨d', hd', heq⟩ := hnames _ _ d hd.weaken
        obtain rfl := (hc.unique hd').2
        rw [hlength heq]
        exact ht d hd.weaken (heq ▸ hv)

/-- A node is linked exactly when there is a slot beside its neighbour. -/
theorem insertNode_takes {v : ℕ × K} {r : ℕ} (h : Upper s level (pre ++ post) above)
    (hone : ∀ v ∈ pre ++ post, ∀ w ∈ pre ++ post, v.1 = w.1 → v = w) (hr : Ready s)
    (hx : Rooted s level x) (hk : s.lastKey x = some k)
    (hs : Rising Prod.snd (pre ++ (x, k) :: post)) (hfit : level + above.length + 1 < 2 ^ 8)
    (hv : post.head?.or pre.getLast? = some v) (hreq : LinkRequests s level (names above) v.1 r)
    (hg : NodesGranted env s.mallocs r) :
    ¬ Takes s level above v.1 ∧ btreeInsertNode env maxLevels s x = none ∨
    Takes s level above v.1 ∧ ∃ s' above', btreeInsertNode env maxLevels s x = some (0, s') ∧
      Linked s s' level (pre ++ (x, k) :: post) above above' ∧ s'.mallocs = s.mallocs + 2 * r := by
  have hfuel : maxLevels = (maxLevels - 1) + 1 := rfl
  by_cases hcut : s.super.Cut
  swap
  · have hn : above.length < maxLevels := by
      have : maxLevels = 2 ^ 8 := rfl
      omega
    rcases links env above.length maxLevels level x r k pre post above v s rfl hn h hr hx hk hs hfit
      hone hv hreq hg with ⟨-, hcut'⟩ | hrun
    · exact absurd hcut' hcut
    · exact Or.inr ⟨fun hcut' => absurd hcut' hcut, hrun⟩
  rw [hfuel]
  cases above with
  | nil =>
      obtain rfl : r = 1 := hreq
      rcases insertNode_grow env (nodesGranted_succ.mp hg).1 h hr hx hk hs hfit with
        ⟨hfew, hnone⟩ | ⟨htwo, hrun⟩
      · exact Or.inl ⟨fun ht => absurd (ht hcut).1 (not_le.mpr hfew), hnone⟩
      · exact Or.inr ⟨fun _ => ⟨htwo, fun ys hys => by cases hys⟩, hrun⟩
  | cons ys above =>
      rw [List.length_cons] at hfit
      obtain ⟨U, u, V, A, c1, c2, B, place, hS, -, hlook⟩ := h.slot env hr hs (by omega)
      have hu : u ∈ ys := by simp [hS.twigs]
      have hmem := hS.neighbour hv
      -- A block that is cut always has space: its array is full first.
      have hlt : (c1 ++ c2).length < s.super.nodeSpace / s.super.twigNeeded :=
        lt_of_le_of_lt hS.twig.within ((fanout_lt hr.created).trans_le hcut)
      obtain ⟨-, rfl⟩ := (hS.requests h hone hv hreq).resolve_right fun hno =>
        absurd hno.1 (not_le.mpr hlt)
      rcases insertNode_room env h hr hx hk hs (by omega) hS hlook (hS.spare hlt) with
        ⟨hfull, hnone⟩ | ⟨hlt, hrun⟩
      · refine Or.inl ⟨fun ht => absurd hfull (not_le.mpr ?_), hnone⟩
        exact (ht hcut).2 ys rfl u hu _ hS.twig.weaken (List.mem_map_of_mem hmem)
      · have hpos : 0 < (c1 ++ c2).length := List.length_pos_of_mem hmem
        refine Or.inr ⟨fun _ => ⟨by omega, fun ys' hys u' hu' cs hc hv' => ?_⟩, hrun⟩
        obtain rfl : ys = ys' := Option.some.inj hys
        rwa [(h.parent hone hu hS.twig hmem hu' hc hv').2]

end Btree

end Carthage
