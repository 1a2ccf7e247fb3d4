import Carthage.BtreeReplace
import Carthage.TwigRemoval

/-!
# Removing a key

`btree_remove` on resident trees. A leaf that loses its only item is freed, and with it the twigs
that have no other child; the lowest twig with another child loses an entry. When there is none the
root stays behind without entries.
-/

namespace Carthage

theorem Page.length_keys {K : Type} (page : Page K) : page.keys.length = page.items := by
  obtain ⟨crc, level, body⟩ := page
  cases body with
  | leaf p => exact List.length_map _
  | twig p => exact List.length_map _

namespace Btree

variable {K D : Type} {s s' t : Btree K D} {E : Prop} {level x i : ℕ} {q : K}
  {xs ys cs c1 c2 pre post U V A B : List (ℕ × K)} {above above' : List (List (ℕ × K))}
  {z u : ℕ × K}

/-! ## Entries of twigs -/

theorem TwigIn.remove (h : TwigIn E s x level (c1 ++ z :: c2))
    (hroom : (c1 ++ z :: c2).length < s.super.fanout ∨ c2 = []) :
    ∃ node, s.twigRemove x c1.length = some (s.setNode x node) ∧
      TwigAt False (s.setNode x node) x level (c1 ++ c2) := by
  obtain ⟨node, hx, ⟨b⟩⟩ := h
  have hcount : (c1 ++ z :: c2).length = c1.length + c2.length + 1 := by simp; omega
  have hlen : b.twig.entries.length = (c1 ++ z :: c2).length := by
    simpa using congrArg List.length b.keys
  have hF : b.pointers.length = s.super.fanout := b.length
  have hwithin : (c1 ++ z :: c2).length ≤ s.super.fanout := b.within
  let rest := b.pointers.drop (c1 ++ z :: c2).length
  have hrest : rest.length = s.super.fanout - (c1 ++ z :: c2).length := by
    rw [List.length_drop, hF]
  have hp : node.pointers = some ((c1 ++ z :: c2).map (fun y => some y.1) ++ rest) := by
    rw [b.array, ← b.linked, List.take_append_drop]
  have herase : ∀ {β : Type} (f : ℕ × K → β),
      ((c1 ++ z :: c2).map f).eraseIdx c1.length = (c1 ++ c2).map f := fun f => by
    rw [List.map_append, List.map_cons,
      List.eraseIdx_append_of_length_le (by simp), List.length_map, Nat.sub_self,
      List.eraseIdx_zero, List.tail_cons, List.map_append]
  have hroom' : rest ≠ [] ∨ c1.length + 1 = b.twig.entries.length := by
    refine hroom.imp (fun hlt => ?_) fun hnil => ?_
    · rw [← List.length_pos_iff, hrest]
      omega
    · rw [hlen, hcount, hnil]
      rfl
  have hstep := twigRemove_eq (s := s) (x := x) hx b.data hp (by rw [List.length_map, hlen])
    (by omega : c1.length < b.twig.entries.length) hroom'
  refine ⟨_, hstep, _, setNode_heap_self _ _ _, ⟨⟨?_, Or.inl rfl⟩⟩⟩
  refine ⟨b.crc, _, _, rfl, ?_, rfl, ?_, ?_, b.narrow, ?_, False.elim⟩
  · rw [← herase, ← b.keys, List.eraseIdx_map]
  · rw [herase, List.length_append, List.length_map, List.length_cons, hrest, List.length_append]
    change _ = s.super.fanout
    omega
  · change (c1 ++ c2).length ≤ s.super.fanout
    rw [List.length_append]
    omega
  · rw [herase, List.take_left' (List.length_map _)]

theorem TwigIn.remove_full (h : TwigIn E s x level (c1 ++ z :: c2))
    (hfull : s.super.fanout ≤ (c1 ++ z :: c2).length) (hc2 : c2 ≠ []) :
    s.twigRemove x c1.length = none := by
  obtain ⟨node, hx, ⟨b⟩⟩ := h
  have hlen : b.twig.entries.length = (c1 ++ z :: c2).length := by
    simpa using congrArg List.length b.keys
  have hF : b.pointers.length = s.super.fanout := b.length
  have hpos : 0 < c2.length := List.length_pos_iff.mpr hc2
  have hcount : (c1 ++ z :: c2).length = c1.length + c2.length + 1 := by simp; omega
  have hend : c1.length + 1 < b.twig.entries.length := by omega
  have hno : ¬ b.twig.entries.length < b.pointers.length := by omega
  simp only [twigRemove, hx, b.data, b.array, Page.twig?, if_pos hend, if_neg hno,
    Option.bind_eq_bind, Option.bind_some]

theorem TwigIn.remove_only (h : TwigIn E s x level [z]) (i : ℕ) :
    ∃ node, s.twigRemove x i = some (s.setNode x node) ∧
      TwigAt False (s.setNode x node) x level [] := by
  have h' : TwigIn E s x level ([] ++ z :: []) := h
  obtain ⟨node, hremove, htwig⟩ := h'.remove (Or.inr rfl)
  refine ⟨node, ?_, htwig⟩
  obtain ⟨node₀, hx, ⟨b⟩⟩ := h
  have hlen : b.twig.entries.length = 1 := by simpa using congrArg List.length b.keys
  rw [← hremove]
  simp only [twigRemove, hx, b.data, b.array, Page.twig?, hlen, Option.bind_eq_bind,
    Option.bind_some, List.length_nil, Nat.zero_add, Nat.lt_irrefl, if_false]
  rw [if_neg (by omega)]

/-! ## Freeing a node -/

/-- The node `x` is gone. Elsewhere only counters and the disk may differ. -/
structure Without (s s' : Btree K D) (x : ℕ) : Prop where
  heap : s'.heap = Function.update s.heap x none
  root : s'.root = s.root
  fresh : s'.fresh = s.fresh
  config : s'.config = s.config
  height : s'.super.height = s.super.height

/-- The node `x` was freed, whatever references to it were held. -/
structure Frees (s s' : Btree K D) (x : ℕ) : Prop extends Without s s' x where
  refs : s'.refs = Function.update s.refs x 0

def Single (s : Btree K D) (level : ℕ) (z : ℕ × K) : Prop :=
  level = 1 ∧ (∃ v, LeafAt s z.1 [(z.2, v)]) ∨ 1 < level ∧ ∃ y, TwigAt False s z.1 level [(y, z.2)]

theorem Single.page (h : Single s level z) : ∃ page, s.page z.1 = some page ∧ page.level = level ∧
    page.items = 1 ∧ page.keys = [z.2] := by
  rcases h with ⟨rfl, v, hl⟩ | ⟨-, y, ht⟩
  · obtain ⟨page, hp, hpl, hpi⟩ := hl.page_items
    obtain ⟨page', hp', hk⟩ := hl.leafIn.keys
    obtain rfl := Option.some.inj (hp.symm.trans hp')
    exact ⟨page, hp, hpl, hpi, hk⟩
  · obtain ⟨page, hp, hpl, hpi⟩ := ht.page_items
    obtain ⟨page', hp', hk⟩ := ht.twigIn.keys
    obtain rfl := Option.some.inj (hp.symm.trans hp')
    exact ⟨page, hp, hpl, hpi, hk⟩

theorem Single.frame (h : Single s level z) (hc : s'.config = s.config)
    (hx : s'.heap z.1 = s.heap z.1) : Single s' level z := by
  rcases h with ⟨hl, v, hleaf⟩ | ⟨hl, y, ht⟩
  · exact Or.inl ⟨hl, v, hleaf.frame hc hx⟩
  · exact Or.inr ⟨hl, y, ht.frame hc hx⟩

theorem Without.heap_ne (h : Without s s' x) {y : ℕ} (hy : y ≠ x) : s'.heap y = s.heap y := by
  rw [h.heap, Function.update_of_ne hy]

theorem refs_drop (h : s.refs x = 0) : Function.update (s.addRef x 1).refs x 0 = s.refs := by
  funext y
  by_cases hy : y = x
  · rw [hy, Function.update_self, h]
  · rw [Function.update_of_ne hy]
    simp [addRef, hy]

section Drop

variable (env : BtreeEnv K D)

/-- The end of `__btree_remove_node`: the only item is removed and the node freed. -/
def dropNode (s : Btree K D) (level x : ℕ) : Option (Btree K D) :=
  (if level = 1 then s.leafRemove x 0 else s.twigRemove x 0).bind fun s₁ =>
    { s₁ with super := { s₁.super with nodeCount := sub64 s₁.super.nodeCount 1 } }.btnodeRemove env x

theorem btnodeRemove_frees (hx : s.heap x ≠ none) :
    ∃ s', s.btnodeRemove env x = some s' ∧ Frees s s' x := by
  obtain ⟨node, hnode⟩ := Option.ne_none_iff_exists'.mp hx
  simp only [btnodeRemove, hnode, Option.bind_eq_bind, Option.bind_some, Option.pure_def]
  refine ⟨_, rfl, ?_⟩
  split_ifs <;> exact ⟨⟨rfl, rfl, rfl, rfl, rfl⟩, rfl⟩

theorem Single.drop (h : Single s level z) (hb : s.super.blockSize < 2 ^ 32) :
    ∃ s', s.dropNode env level z.1 = some s' ∧ Frees s s' z.1 := by
  rcases h with ⟨rfl, v, hleaf⟩ | ⟨hl, y, ht⟩
  · have hleaf₀ : LeafAt s z.1 ([] ++ (z.2, v) :: []) := hleaf
    obtain ⟨s₁, hremove, htouch, hleaf₁⟩ :=
      leafRemove_spec hleaf₀ hb fun hc => absurd hc (by simp)
    have hremove₀ : s.leafRemove z.1 0 = some s₁ := by
      have h0 := hremove z.1 0
      simpa [addRef] using h0
    let s₂ : Btree K D :=
      { s₁ with super := { s₁.super with nodeCount := sub64 s₁.super.nodeCount 1 } }
    obtain ⟨s', hfree, hf⟩ := btnodeRemove_frees env (s := s₂) hleaf₁.resident.heap
    refine ⟨s', ?_, ⟨?_, ?_, ?_, ?_, ?_⟩, ?_⟩
    · rw [dropNode, if_pos rfl, hremove₀, Option.bind_some]
      exact hfree
    · rw [hf.heap]
      funext y
      by_cases hy : y = z.1
      · rw [hy, Function.update_self, Function.update_self]
      · rw [Function.update_of_ne hy, Function.update_of_ne hy]
        exact htouch.others y (by simpa using hy)
    · exact hf.root.trans htouch.root
    · exact hf.fresh.trans htouch.fresh
    · exact hf.config.trans htouch.config
    · exact hf.height.trans htouch.height
    · rw [hf.refs]
      exact congrArg (Function.update · z.1 0) htouch.refs
  · obtain ⟨node, hremove, ht₁⟩ := ht.twigIn.remove_only 0
    let s₂ : Btree K D := { s.setNode z.1 node with
      super := { s.super with nodeCount := sub64 s.super.nodeCount 1 } }
    obtain ⟨s', hfree, hf⟩ := btnodeRemove_frees env (s := s₂) ht₁.resident.heap
    refine ⟨s', ?_, ⟨?_, hf.root, hf.fresh, hf.config, hf.height⟩, hf.refs⟩
    · rw [dropNode, if_neg (by omega), hremove, Option.bind_some]
      exact hfree
    · rw [hf.heap]
      exact Function.update_idem _ _ _

theorem Single.drop_release {y : ℕ} (h : Single t level z) (hb : t.super.blockSize < 2 ^ 32)
    (hy : ResidentAt t y) (hyz : y ≠ z.1) (hr : 0 ≤ s.refs) (hrz : s.refs z.1 = 0)
    (hrefs : t.refs = ((s.addRef z.1 1).addRef y 1).refs) :
    ∃ s', ((t.dropNode env level z.1).bind fun s₁ => s₁.btnodeRelease env y) = some s' ∧
      Without t s' z.1 ∧ s'.refs = s.refs := by
  obtain ⟨s₁, hdrop, hf⟩ := h.drop env hb
  have hrefs₁ : s₁.refs = (s.addRef y 1).refs := by
    have hcomm : ((s.addRef z.1 1).addRef y 1).refs = ((s.addRef y 1).addRef z.1 1).refs :=
      congrArg Btree.refs (addRef_comm s z.1 y 1 1)
    have hzero : (s.addRef y 1).refs z.1 = 0 := by
      simp [addRef, hyz.symm, hrz]
    rw [hf.refs, hrefs, hcomm]
    exact refs_drop hzero
  have hres : ResidentAt s₁ y := hy.frame hf.config (hf.heap_ne hyz)
  obtain ⟨hrelease, hback⟩ := btnodeRelease_counted env hres hr hrefs₁
  refine ⟨s₁.addRef y (-1), ?_, ⟨hf.heap, hf.root, hf.fresh, hf.config, hf.height⟩, hback⟩
  rw [hdrop, Option.bind_some, hrelease]

end Drop

/-! ## What a removal leaves -/

/-- What a twig with another child is left with. -/
structure Shrunk (s s' : Btree K D) (level : ℕ) (u : ℕ) (xs : List (ℕ × K))
    (above : List (List (ℕ × K))) : Prop where
  index : Index False s' level xs above
  state : ∃ h, s' = { s with heap := h }
  low : ∀ y page, s.page y = some page → page.level ≤ level → s'.heap y = s.heap y
  absent : ∀ y, s.heap y = none → s'.heap y = none
  resident : ResidentAt s' u

/-- The lowest twig above `z` that has another child has more slots than children, or the path to
`z` goes through its last child. -/
def Spared (s : Btree K D) : ℕ → List (List (ℕ × K)) → ℕ × K → Prop
  | _, [], _ => False
  | level, ys :: above, z => ∃ u ∈ ys, ∃ c1 c2, TwigAt False s u.1 (level + 1) (c1 ++ z :: c2) ∧
      (c1 ++ c2 = [] ∧ Spared s (level + 1) above u ∨
        c1 ++ c2 ≠ [] ∧ ((c1 ++ z :: c2).length < s.super.fanout ∨ c2 = []))

theorem spared_congr (hc : s'.config = s.config) (hh : s'.heap = s.heap) :
    Spared s' level above z ↔ Spared s level above z := by
  induction above generalizing level z with
  | nil => rfl
  | cons ys above ih =>
      have hfanout : s'.super.fanout = s.super.fanout :=
        congrArg (fun c : Config => c.geometry.fanout) hc
      have htwig : ∀ y l cs, TwigAt False s' y l cs ↔ TwigAt False s y l cs := fun y l cs =>
        ⟨fun h => h.frame hc.symm (congrFun hh.symm y), fun h => h.frame hc (congrFun hh y)⟩
      simp only [Spared, ih, htwig, hfanout]

/-- Nodes up to a level stay, but for the node `x`. -/
structure Settled (s s' : Btree K D) (level x : ℕ) : Prop where
  low : ∀ y page, s.page y = some page → page.level ≤ level → y ≠ x → s'.heap y = s.heap y
  refs : s'.refs = s.refs
  config : s'.config = s.config

/-- A level that lost the node `x`, with the levels above it. -/
structure Unlinked (s s' : Btree K D) (level x : ℕ) (xs : List (ℕ × K))
    (above : List (List (ℕ × K))) : Prop extends Settled s s' level x where
  index : Index False s' level xs above
  absent : ∀ y, s.heap y = none → s'.heap y = none
  root : s'.root = s.root
  fresh : s'.fresh = s.fresh
  height : s'.super.height = s.super.height

/-- The root is a twig without entries. -/
structure Hollow (s s' : Btree K D) (level x : ℕ) : Prop extends Settled s s' level x where
  root : ∃ r l, level < l ∧ s'.root = some r ∧ TwigAt False s' r l []

theorem Single.ne {l y : ℕ} (h : Single s level z) (hy : TwigAt E s y l cs) (hl : l ≠ level) :
    y ≠ z.1 := by
  rintro rfl
  obtain ⟨page, hp, hpl, -⟩ := h.page
  obtain ⟨page', hp', hpl', -⟩ := hy.page_items
  obtain rfl := Option.some.inj (hp.symm.trans hp')
  exact hl (hpl'.symm.trans hpl)

theorem Without.settled (h : Without t s' x) (hlow : ∀ y page, s.page y = some page →
    page.level ≤ level → y ≠ x → t.heap y = s.heap y) (hrefs : s'.refs = s.refs)
    (hconfig : t.config = s.config) : Settled s s' level x :=
  ⟨fun y page hp hle hy => (h.heap_ne hy).trans (hlow y page hp hle hy), hrefs,
    h.config.trans hconfig⟩

theorem Without.index (h : Without t s' z.1) (hz : Single t level z)
    (hi : Index False t level xs above) : Index False s' level xs above :=
  hi.mono h.root fun _ _ _ hlt hc => hc.frame h.config (h.heap_ne (hz.ne hc hlt.ne'))

theorem Without.absent (h : Without t s' x) (habsent : ∀ y, s.heap y = none → t.heap y = none) :
    ∀ y, s.heap y = none → s'.heap y = none := by
  intro y hy
  by_cases hyx : y = x
  · rw [h.heap, hyx, Function.update_self]
  · rw [h.heap_ne hyx, habsent y hy]

/-! ## Separators -/

variable [LinearOrder K] (env : BtreeEnv K D)

theorem btreeTwigsRemoveUpdate_spec (h : Index E s level xs above) (hs : Rising Prod.snd xs)
    (hl : 1 ≤ level) (hroot : ∀ z ∈ xs, Rooted s level z.1) (hfit : level + above.length < 2 ^ 8)
    (hr : 0 ≤ s.refs) {page : Page K} (hp : s.page x = some page) (hpl : page.level = level)
    {k1 k2 : List K} {k last new : K} (hkeys : page.keys = k1 ++ k :: k2)
    (hlast : (k1 ++ k :: k2).getLast? = some last) (hnew : (k1 ++ k2).getLast? = some new) :
    ∃ s', s.btreeTwigsRemoveUpdate env x k1.length = some s' ∧ Retwig level s s' ∧
      Index E s' level (xs.map (rename last new)) (above.map (List.map (rename last new))) := by
  obtain ⟨s', hupdate, hre, hi, -⟩ := btreeTwigsUpdate_spec env h hs hl hroot hfit hr hp hpl
    (.inl rfl : some new = some new ∨ ∀ z ∈ xs, z.2 ≠ last)
  refine ⟨s', ?_, hre, hi⟩
  have hitems : page.items = k1.length + k2.length + 1 := by
    rw [← Page.length_keys, hkeys, List.length_append, List.length_cons]
    omega
  have hread : s.lastKey x = some last := by
    simp only [lastKey, hp, hkeys, hlast, Option.bind_eq_bind, Option.bind_some]
  simp only [btreeTwigsRemoveUpdate, hread, hp, hitems, Option.bind_eq_bind, Option.bind_some]
  cases k2 with
  | nil =>
      have hprev : s.lastPrevKey x = some new := by
        simp only [lastPrevKey, hp, hkeys, List.dropLast_concat, Option.bind_eq_bind,
          Option.bind_some]
        rwa [List.append_nil] at hnew
      rw [if_pos (by simp), hprev, hupdate]
  | cons k' k2 =>
      have hends : (k1 ++ k :: k' :: k2).getLast? = (k1 ++ k' :: k2).getLast? := by simp
      obtain rfl : last = new := Option.some.inj (hlast.symm.trans (hends.trans hnew))
      rw [if_neg (by simp), hupdate]

/-! ## The parent of a node -/

/-- The twig `u` of a level that has `z` as a child. -/
structure Parent (s : Btree K D) (level : ℕ) (pre : List (ℕ × K)) (z : ℕ × K)
    (post ys U : List (ℕ × K)) (u : ℕ × K) (V A c1 c2 B : List (ℕ × K)) : Prop where
  twigs : ys = U ++ u :: V
  left : pre = A ++ c1
  right : post = c2 ++ B
  twig : TwigAt False s u.1 (level + 1) (c1 ++ z :: c2)
  before : Groups False s (level + 1) A U
  after : Groups False s (level + 1) B V
  label : ∃ w, (c1 ++ z :: c2).getLast? = some w ∧ w.2 = u.2
  rising : Rising Prod.snd (c1 ++ z :: c2)

theorem rising_split_unique {P Q : List (ℕ × K)} (hs : Rising Prod.snd (pre ++ z :: post))
    (h : pre ++ z :: post = P ++ z :: Q) : pre = P ∧ post = Q := by
  have hcut : ∀ {P Q : List (ℕ × K)}, pre ++ z :: post = P ++ z :: Q →
      (∀ y ∈ P, y.2 < z.2) ∧ ∀ y ∈ z :: Q, ¬ y.2 < z.2 := fun {P Q} heq => by
    obtain ⟨-, h2, hcross⟩ := List.pairwise_append.mp (heq ▸ hs)
    obtain ⟨hz, -⟩ := List.pairwise_cons.mp h2
    exact ⟨fun y hy => hcross y hy z List.mem_cons_self,
      List.forall_mem_cons.mpr ⟨lt_irrefl _, fun y hy => (hz y hy).not_gt⟩⟩
  obtain ⟨h1, h2⟩ := hcut rfl
  obtain ⟨h3, h4⟩ := hcut h
  obtain ⟨rfl, heq⟩ := split_unique h h1 h2 h3 h4
  exact ⟨rfl, (List.cons_eq_cons.mp heq).2⟩

theorem Index.parent (h : Index False s level (pre ++ z :: post) (ys :: above))
    (hs : Rising Prod.snd (pre ++ z :: post)) (hl : 1 ≤ level)
    (hfit : level + above.length + 1 < 2 ^ 8) (hr : 0 ≤ s.refs) :
    ∃ U u V A c1 c2 B place, Parent s level pre z post ys U u V A c1 c2 B ∧
      place.index = c1.length ∧
      s.btreeLookupLevel env z.2 (level + 1) noPlace = some (some u.1, place, s.addRef u.1 1) := by
  obtain ⟨U, u, V, cs, w, place, hloc, hc, hw, hwu, hcs, hidx, -, hlook⟩ :=
    h.lookup_twig env hs hl hfit hr z.2 noPlace
  obtain ⟨A, c, B, w', hxs, hc', -, -, hA, hB, -⟩ := h.1.located hs hloc
  obtain rfl := (hc.unique hc').2
  have hz : z ∈ cs := located_holds hloc h.1 hs hc (by simp) rfl
  obtain ⟨c1, c2, rfl, hrank⟩ := rank_of_mem hcs hz
  have heq : pre ++ z :: post = (A ++ c1) ++ z :: (c2 ++ B) := by rw [hxs]; simp
  obtain ⟨hleft, hright⟩ := rising_split_unique hs heq
  exact ⟨U, u, V, A, c1, c2, B, place,
    ⟨hloc.split, hleft, hright, hc, hA, hB, ⟨w, hw, hwu⟩, hcs⟩, hidx.trans hrank, hlook⟩

theorem removeNode_step {n y : ℕ} {k : K} {page ppage : Page K} {place : Place}
    (hk : s.lastKey x = some k) (hp : s.page x = some page)
    (hlook : s.btreeLookupLevel env k (page.level + 1) noPlace = some (some y, place, t))
    (hpp : t.page y = some ppage) : btreeRemoveNode env (n + 1) s x =
      (if ppage.items = 1 then btreeRemoveNode env n t y
        else (t.btreeTwigsRemoveUpdate env y place.index).bind fun s₁ =>
          (s₁.twigRemove y place.index).bind fun s₂ => some (false, s₂)).bind fun r =>
        (r.2.dropNode env page.level x).bind fun s₁ =>
          (if r.1 then some s₁ else s₁.btnodeRelease env y).bind fun s₂ => some (true, s₂) := by
  have htail : ∀ {o : Option (Btree K D)} (b : Bool),
      (o.bind fun s₁ => if b then some (true, s₁)
        else (s₁.btnodeRelease env y).bind fun s₂ => some (true, s₂)) =
      o.bind fun s₁ => (if b then some s₁ else s₁.btnodeRelease env y).bind fun s₂ =>
        some (true, s₂) := fun b => by cases b <;> rfl
  rw [btreeRemoveNode]
  simp only [hk, hp, hlook, hpp, Option.bind_eq_bind, Option.bind_some, Option.pure_def, dropNode]
  by_cases hone : ppage.items = 1
  · by_cases hleaf : page.level = 1
    · simp only [if_pos hone, if_pos hleaf, Option.bind_assoc, ← htail]
    · simp only [if_pos hone, if_neg hleaf, Option.bind_assoc, ← htail]
  · by_cases hleaf : page.level = 1
    · simp only [if_neg hone, if_pos hleaf, Option.bind_assoc, ← htail]
      rfl
    · simp only [if_neg hone, if_neg hleaf, Option.bind_assoc, ← htail]
      rfl

theorem btreeTwigsUpdate_root {page : Page K} (hroot : s.root = some x) (hx : Rooted s level x)
    (hfit : level < 2 ^ 8) (hr : 0 ≤ s.refs) (hp : s.page x = some page) (hpl : page.level = level)
    (old : K) (new : Option K) : s.btreeTwigsUpdate env x old new = some s := by
  obtain ⟨place, hlook⟩ := lookup_above env hroot hx hfit (Nat.lt_succ_self level) hr old noPlace
  have hfuel : maxLevels = (maxLevels - 1) + 1 := rfl
  simp only [btreeTwigsUpdate, hp, hpl, Option.bind_eq_bind, Option.bind_some]
  rw [hfuel, twigsUpdateLoop]
  simp only [hlook, Option.bind_eq_bind, Option.bind_some, Option.pure_def]

theorem removeNode_root {n : ℕ} (hroot : s.root = some x) (hx : Rooted s level x)
    (hz : TwigAt False s x level [z]) (hl : 1 < level) (hfit : level < 2 ^ 8) (hr : 0 ≤ s.refs) :
    ∃ node, btreeRemoveNode env (n + 1) s x = some (false, s.setNode x node) ∧
      TwigAt False (s.setNode x node) x level [] := by
  obtain ⟨page, hp, hpl, hpi⟩ := hz.page_items
  have hk : s.lastKey x = some z.2 := hz.twigIn.lastKey rfl
  obtain ⟨place, hlook⟩ := lookup_above env hroot hx hfit (Nat.lt_succ_self level) hr z.2 noPlace
  obtain ⟨node, hremove, ht⟩ := hz.twigIn.remove_only place.index
  refine ⟨node, ?_, ht⟩
  have hsep : s.btreeTwigsRemoveUpdate env x place.index = some s := by
    simp only [btreeTwigsRemoveUpdate, hk, hp, Option.bind_eq_bind, Option.bind_some,
      btreeTwigsUpdate_root env hroot hx hfit hr hp hpl, ite_self]
  rw [btreeRemoveNode]
  simp only [hk, hp, hpl, hlook, hsep, hremove, Option.bind_eq_bind, Option.bind_some, if_pos hl,
    Option.pure_def, gt_iff_lt]

/-! ## The twig that stays -/

namespace Parent

theorem frame (h : Parent s level pre z post ys U u V A c1 c2 B) (hc : s'.config = s.config)
    (hh : s'.heap = s.heap) : Parent s' level pre z post ys U u V A c1 c2 B :=
  { h with
    twig := h.twig.frame hc (congrFun hh _)
    before := h.before.mono fun _ _ _ hy => hy.frame hc (congrFun hh _)
    after := h.after.mono fun _ _ _ hy => hy.frame hc (congrFun hh _) }

theorem ne (h : Parent s level pre z post ys U u V A c1 c2 B)
    (hg : Groups False s (level + 1) (pre ++ z :: post) ys)
    (hs : Rising Prod.snd (pre ++ z :: post)) : ∀ v ∈ U ++ V, v.1 ≠ u.1 := by
  rw [h.twigs] at hg
  exact hg.names_ne (fun _ _ _ h h' => (h.unique h').2) hs

theorem shrink (hP : Parent s level pre z post ys U u V A c1 c2 B)
    (h : Index False s level (pre ++ z :: post) (ys :: above))
    (hs : Rising Prod.snd (pre ++ z :: post)) (hl : 1 ≤ level)
    (hx : ∀ y ∈ pre ++ z :: post, Rooted s level y.1) (hfit : level + above.length + 1 < 2 ^ 8)
    (hr : 0 ≤ s.refs) (hne : c1 ++ c2 ≠ []) :
    ((c1 ++ z :: c2).length < s.super.fanout ∨ c2 = []) ∧
      (∃ s' above', (s.btreeTwigsRemoveUpdate env u.1 c1.length).bind
          (fun s₁ => s₁.twigRemove u.1 c1.length) = some s' ∧
        above'.length = above.length + 1 ∧ Shrunk s s' level u.1 (pre ++ post) above') ∨
    ¬ ((c1 ++ z :: c2).length < s.super.fanout ∨ c2 = []) ∧
      (s.btreeTwigsRemoveUpdate env u.1 c1.length).bind
        (fun s₁ => s₁.twigRemove u.1 c1.length) = none := by
  obtain ⟨hg, hi⟩ := h
  have hys := hg.rising hs
  have hrooted := hg.rooted hl hx
  obtain ⟨crc, twig, hp, hkeys, -⟩ := hP.twig.page
  obtain ⟨last, hlast, hlabel⟩ := hP.label
  obtain ⟨new, hnew⟩ := Option.ne_none_iff_exists'.mp (mt List.getLast?_eq_none_iff.mp hne)
  have hpkeys : (⟨crc, level + 1, .twig twig⟩ : Page K).keys =
      c1.map Prod.snd ++ z.2 :: c2.map Prod.snd := by
    rw [← List.map_cons, ← List.map_append]
    exact hkeys
  have hlast' : (c1.map Prod.snd ++ z.2 :: c2.map Prod.snd).getLast? = some u.2 := by
    rw [← List.map_cons, ← List.map_append, List.getLast?_map, hlast, ← hlabel]
    rfl
  have hnew' : (c1.map Prod.snd ++ c2.map Prod.snd).getLast? = some new.2 := by
    rw [← List.map_append, List.getLast?_map, hnew]
    rfl
  obtain ⟨s₁, hupdate, hre, hi₁⟩ := btreeTwigsRemoveUpdate_spec env hi hys (by omega) hrooted
    (by omega) hr hp rfl hpkeys hlast' hnew'
  rw [List.length_map] at hupdate
  rw [hP.twigs, rename_label (hP.twigs ▸ hys)] at hi₁
  have htwig₁ := hre.twigAt le_rfl hP.twig
  have hsuper := hre.super
  by_cases hroom : (c1 ++ z :: c2).length < s.super.fanout ∨ c2 = []
  swap
  · refine Or.inr ⟨hroom, ?_⟩
    obtain ⟨hfull, hc2⟩ := not_or.mp hroom
    rw [hupdate, Option.bind_some]
    exact htwig₁.twigIn.remove_full (hsuper ▸ not_lt.mp hfull) hc2
  obtain ⟨node, hremove, htwig₂⟩ := htwig₁.twigIn.remove (hsuper ▸ hroom)
  have hother : ∀ y l cs, y ≠ u.1 → TwigAt False s₁ y l cs →
      TwigAt False (s₁.setNode u.1 node) y l cs := fun y l cs hy hc =>
    hc.frame rfl (setNode_heap_ne s₁ hy node)
  have hne' := hP.ne hg hs
  have hbefore : Groups False (s₁.setNode u.1 node) (level + 1) A U := hP.before.mono
    fun v hv cs hc => hother _ _ _ (hne' v (List.mem_append_left V hv)) (hre.twigAt le_rfl hc)
  have hafter : Groups False (s₁.setNode u.1 node) (level + 1) B V := hP.after.mono
    fun v hv cs hc => hother _ _ _ (hne' v (List.mem_append_right U hv)) (hre.twigAt le_rfl hc)
  have hmid : Groups False (s₁.setNode u.1 node) (level + 1) (c1 ++ c2) [(u.1, new.2)] :=
    Grouped.single (P := fun y cs => TwigAt False (s₁.setNode u.1 node) y (level + 1) cs) htwig₂ hnew
  have hgroups : Groups False (s₁.setNode u.1 node) (level + 1) (pre ++ post)
      (U ++ (u.1, new.2) :: V) := by
    have hlist : A ++ c1 ++ (c2 ++ B) = A ++ (c1 ++ c2) ++ B := by simp
    have hnames : U ++ (u.1, new.2) :: V = U ++ [(u.1, new.2)] ++ V := by simp
    rw [hP.left, hP.right, hlist, hnames]
    exact (hbefore.append hmid).append hafter
  have hindex : Index False (s₁.setNode u.1 node) level (pre ++ post)
      ((U ++ (u.1, new.2) :: V) :: above.map (List.map (rename u.2 new.2))) := by
    refine ⟨hgroups, hi₁.mono rfl fun y l cs hlt hc => hother y l cs ?_ hc⟩
    rintro rfl
    have := (hc.unique htwig₁).1
    omega
  refine Or.inl ⟨hroom, s₁.setNode u.1 node, _, by rw [hupdate, Option.bind_some, hremove], ?_,
    ⟨hindex, ?_, fun y page hy hle => ?_, fun y hy => ?_, htwig₂.resident⟩⟩
  · rw [List.length_cons, List.length_map]
  · obtain ⟨g, rfl⟩ := hre.heap
    exact ⟨_, rfl⟩
  · rw [setNode_heap_ne s₁ _ node, hre.low y page hy (by omega)]
    rintro rfl
    obtain rfl := Option.some.inj (hp.symm.trans hy)
    exact absurd hle (by simp)
  · rw [setNode_heap_ne s₁ _ node, hre.absent y hy]
    rintro rfl
    exact hP.twig.resident.heap hy

end Parent

theorem Parent.spared (hP : Parent s level pre z post ys U u V A c1 c2 B)
    (hg : Groups False s (level + 1) (pre ++ z :: post) ys)
    (hs : Rising Prod.snd (pre ++ z :: post)) : Spared s level (ys :: above) z ↔
      c1 ++ c2 = [] ∧ Spared s (level + 1) above u ∨
        c1 ++ c2 ≠ [] ∧ ((c1 ++ z :: c2).length < s.super.fanout ∨ c2 = []) := by
  have hu : u ∈ ys := by simp [hP.twigs]
  refine ⟨?_, fun h => ⟨u, hu, c1, c2, hP.twig, h⟩⟩
  rintro ⟨u', hu', c1', c2', hc', h⟩
  obtain rfl := hg.group_unique (fun _ _ _ h h' => (h.unique h').2) hs hu' hu hc' hP.twig
    (by simp : z ∈ c1' ++ z :: c2') (by simp)
  obtain ⟨rfl, rfl⟩ := rising_split_unique hP.rising (hP.twig.unique hc').2
  exact h

/-- A node with one item is unlinked when the lowest twig with another child lets it; without such
a twig the root is left without entries. -/
theorem removeNode_cases {n : ℕ} (h : Index False s level (pre ++ z :: post) above)
    (hs : Rising Prod.snd (pre ++ z :: post)) (hx : ∀ y ∈ pre ++ z :: post, Rooted s level y.1)
    (hz : Single s level z) (hr : 0 ≤ s.refs)
    (hq : ∀ y page, s.page y = some page → level ≤ page.level → s.refs y = 0)
    (hb : s.super.blockSize < 2 ^ 32) (htop : above = [] → 1 < level)
    (hfit : level + above.length < 2 ^ 8) (hn : above.length < n) :
    Spared s level above z ∧ (∃ s' above',
      btreeRemoveNode env n (s.addRef z.1 1) z.1 = some (true, s') ∧
        above'.length = above.length ∧ Unlinked s s' level z.1 (pre ++ post) above') ∨
    ¬ Spared s level above z ∧ (btreeRemoveNode env n (s.addRef z.1 1) z.1 = none ∨
      (∃ s', btreeRemoveNode env n (s.addRef z.1 1) z.1 = some (true, s') ∧ Hollow s s' level z.1) ∨
      above = [] ∧ ∃ node,
        btreeRemoveNode env n (s.addRef z.1 1) z.1 =
          some (false, (s.addRef z.1 1).setNode z.1 node) ∧
        TwigAt False ((s.addRef z.1 1).setNode z.1 node) z.1 level []) := by
  induction above generalizing s level pre z post n with
  | nil =>
      refine Or.inr ⟨id, Or.inr (Or.inr ⟨rfl, ?_⟩)⟩
      obtain ⟨n, rfl⟩ : ∃ m, n = m + 1 := ⟨n - 1, by omega⟩
      have hl := htop rfl
      obtain ⟨v, hv, hroot⟩ := h
      obtain ⟨rfl, rfl⟩ : pre = [] ∧ z = v := by
        cases pre with
        | nil => exact ⟨rfl, (List.cons_eq_cons.mp hv).1⟩
        | cons y pre => simp at hv
      obtain ⟨y, ht⟩ : ∃ y, TwigAt False s z.1 level [(y, z.2)] := by
        rcases hz with ⟨h1, -⟩ | ⟨-, ht⟩
        · omega
        · exact ht
      have hrooted := hx z (by simp)
      exact removeNode_root env (s := s.addRef z.1 1) hroot (hrooted.frame rfl fun _ _ _ _ => rfl)
        (ht.frame rfl rfl) hl (by simpa using hfit) (addRef_nonneg hr z.1)
  | cons ys above ih =>
      obtain ⟨n, rfl⟩ : ∃ m, n = m + 1 := ⟨n - 1, by omega⟩
      rw [List.length_cons] at hfit hn
      have hl : 1 ≤ level := by
        rcases hz with ⟨rfl, -⟩ | ⟨hlt, -⟩
        · exact le_rfl
        · exact hlt.le
      obtain ⟨page, hp, hpl, -, hkeys⟩ := hz.page
      have hrz : s.refs z.1 = 0 := hq z.1 page hp hpl.ge
      let t := s.addRef z.1 1
      have hrt : 0 ≤ t.refs := addRef_nonneg hr z.1
      have ht : Index False t level (pre ++ z :: post) (ys :: above) :=
        h.mono rfl fun _ _ _ _ hc => hc.frame rfl rfl
      have hxt : ∀ y ∈ pre ++ z :: post, Rooted t level y.1 :=
        fun y hy => (hx y hy).frame rfl fun _ _ _ _ => rfl
      obtain ⟨U, u, V, A, c1, c2, B, place, hP, hidx, hlook⟩ :=
        ht.parent env hs hl (by omega) hrt
      have hk : t.lastKey z.1 = some z.2 := by
        have hp' : t.page z.1 = some page := hp
        simp only [lastKey, hp', hkeys, Option.bind_eq_bind, Option.bind_some]
        rfl
      obtain ⟨ppage, hpp, hppl, hpi⟩ := hP.twig.page_items
      have hzt : Single t level z := hz.frame rfl rfl
      have huz : u.1 ≠ z.1 := hzt.ne hP.twig (by omega)
      have hstep := removeNode_step env (n := n) (t := t.addRef u.1 1) hk
        (hp : t.page z.1 = some page) (hpl ▸ hlook) hpp
      rw [hpl, hpi, hidx] at hstep
      have hsame : Spared t level (ys :: above) z ↔ Spared s level (ys :: above) z :=
        spared_congr rfl rfl
      have hspared : Spared s level (ys :: above) z ↔ _ := hsame.symm.trans (hP.spared ht.1 hs)
      by_cases hone : c1 ++ c2 = []
      · -- The twig has no other child: it goes with the node.
        rw [or_iff_left (fun hne => hne.1 hone), and_iff_right hone] at hspared
        obtain ⟨rfl, rfl⟩ := List.append_eq_nil_iff.mp hone
        rw [if_pos (by simp)] at hstep
        have hleft : pre = A := by rw [hP.left, List.append_nil]
        have hright : post = B := hP.right
        have hzu : z.2 = u.2 := by
          obtain ⟨w, hw, hwu⟩ := hP.label
          obtain rfl : z = w := by simpa using hw
          exact hwu
        have hsingle : Single t (level + 1) u := Or.inr ⟨by omega, z.1, hzu ▸ hP.twig⟩
        have hq' : ∀ y page, t.page y = some page → level + 1 ≤ page.level → t.refs y = 0 := by
          intro y page' hp' hle
          have hyz : y ≠ z.1 := by
            rintro rfl
            obtain rfl := Option.some.inj (hp.symm.trans hp')
            omega
          have hy := hq y page' hp' (by omega)
          simp [t, addRef, hyz, hy]
        have hup : Index False t (level + 1) (U ++ u :: V) above := hP.twigs ▸ ht.2
        have hrise : Rising Prod.snd (U ++ u :: V) := hP.twigs ▸ ht.1.rising hs
        have hrooted : ∀ y ∈ U ++ u :: V, Rooted t (level + 1) y.1 :=
          hP.twigs ▸ ht.1.rooted hl hxt
        have hne := hP.ne ht.1 hs
        have hlow : ∀ {s₁ : Btree K D}, Settled t s₁ (level + 1) u.1 → ∀ y page,
            t.page y = some page → page.level ≤ level → s₁.heap y = t.heap y := by
          intro s₁ hS y ypage hy hle
          refine hS.low y ypage hy (by omega) ?_
          rintro rfl
          obtain rfl := Option.some.inj (hpp.symm.trans hy)
          omega
        -- Once the twig is settled, the node itself is dropped.
        have hdone : ∀ {s₁ : Btree K D}, Settled t s₁ (level + 1) u.1 →
            btreeRemoveNode env n (t.addRef u.1 1) u.1 = some (true, s₁) →
            Single s₁ level z ∧ ∃ s₂, btreeRemoveNode env (n + 1) t z.1 = some (true, s₂) ∧
              Without s₁ s₂ z.1 ∧ Settled s s₂ level z.1 := by
          intro s₁ hS hrun
          have hz₁ : Single s₁ level z := hzt.frame hS.config (hlow hS z.1 page hp hpl.le)
          have hb₁ : s₁.super.blockSize < 2 ^ 32 :=
            (congrArg (fun c : Config => c.geometry.blockSize) hS.config).trans_lt hb
          obtain ⟨s₂, hdrop, hf⟩ := hz₁.drop env hb₁
          refine ⟨hz₁, s₂, ?_, hf.toWithout, hf.settled (fun y ypage hy hle _ => ?_) ?_ hS.config⟩
          · rw [hstep, hrun, Option.bind_some, hdrop, Option.bind_some]
            rfl
          · exact hlow hS y ypage hy hle
          · rw [hf.refs, hS.refs]
            exact refs_drop hrz
        rcases ih hup hrise hrooted hsingle hrt hq' hb (fun _ => by omega) (by omega)
          (by omega : above.length < n) with
          ⟨hsp, s₁, above', hrun, hlen, hU⟩ | ⟨hno, hnone | ⟨s₁, hrun, hH⟩ | ⟨rfl, node, hrun, hemp⟩⟩
        · refine Or.inl ⟨hspared.mpr hsp, ?_⟩
          obtain ⟨hz₁, s₂, hrun', hw, hS⟩ := hdone hU.toSettled hrun
          have hothers : ∀ v ∈ U ++ V, ∀ cs, TwigAt False t v.1 (level + 1) cs →
              TwigAt False s₁ v.1 (level + 1) cs := fun v hv cs hc => by
            obtain ⟨vpage, hvp, hvl, -⟩ := hc.page_items
            exact hc.frame hU.config (hU.low v.1 vpage hvp hvl.le (hne v hv))
          have hgroups : Groups False s₁ (level + 1) (pre ++ post) (U ++ V) := by
            have hbefore : Groups False s₁ (level + 1) A U :=
              hP.before.mono fun v hv => hothers v (List.mem_append_left V hv)
            have hafter : Groups False s₁ (level + 1) B V :=
              hP.after.mono fun v hv => hothers v (List.mem_append_right U hv)
            rw [hleft, hright]
            exact hbefore.append hafter
          have hi₁ : Index False s₁ level (pre ++ post) ((U ++ V) :: above') := ⟨hgroups, hU.index⟩
          exact ⟨s₂, (U ++ V) :: above', hrun', congrArg (· + 1) hlen, hS, hw.index hz₁ hi₁,
            hw.absent hU.absent, hw.root.trans hU.root, hw.fresh.trans hU.fresh,
            hw.height.trans hU.height⟩
        · refine Or.inr ⟨mt hspared.mp hno, Or.inl ?_⟩
          rw [hstep, hnone, Option.bind_none]
        · obtain ⟨hz₁, s₂, hrun', hw, hS⟩ := hdone hH.toSettled hrun
          obtain ⟨r, l, hlt, hroot, hr⟩ := hH.root
          exact Or.inr ⟨mt hspared.mp hno, Or.inr (Or.inl ⟨s₂, hrun', hS, r, l, by omega,
            hw.root.trans hroot, hr.frame hw.config (hw.heap_ne (hz₁.ne hr (by omega)))⟩)⟩
        · obtain ⟨v, hv, hroot⟩ := hup
          obtain rfl : u = v := by
            cases U with
            | nil => exact (List.cons_eq_cons.mp hv).1
            | cons y U => simp at hv
          let s₁ := (t.addRef u.1 1).setNode u.1 node
          have hz₁ : Single s₁ level z := hzt.frame rfl (setNode_heap_ne _ huz.symm node)
          obtain ⟨s₂, hdrop, hw, hrefs⟩ := hz₁.drop_release env hb hemp.resident huz hr hrz rfl
          refine Or.inr ⟨mt hspared.mp hno, Or.inr (Or.inl ⟨s₂, ?_, ?_, u.1, level + 1,
            Nat.lt_succ_self level, hw.root.trans hroot, hemp.frame hw.config (hw.heap_ne huz)⟩)⟩
          · obtain ⟨s₃, h₃, h₄⟩ := Option.bind_eq_some_iff.mp hdrop
            rw [hstep, hrun, Option.bind_some, h₃, Option.bind_some, if_neg Bool.false_ne_true, h₄]
            rfl
          · refine hw.settled (fun y ypage hy hle _ => setNode_heap_ne _ ?_ node) hrefs rfl
            rintro rfl
            obtain rfl := Option.some.inj (hpp.symm.trans hy)
            omega
      · -- The twig stays, without the entry of the node.
        rw [or_iff_right (fun hnil => hone hnil.1), and_iff_right hone] at hspared
        have hcount : (c1 ++ z :: c2).length = (c1 ++ c2).length + 1 := by simp; omega
        have hpos : 0 < (c1 ++ c2).length := List.length_pos_iff.mpr hone
        rw [if_neg (by omega)] at hstep
        have ht' : Index False (t.addRef u.1 1) level (pre ++ z :: post) (ys :: above) :=
          ht.mono rfl fun _ _ _ _ hc => hc.frame rfl rfl
        have hP' : Parent (t.addRef u.1 1) level pre z post ys U u V A c1 c2 B := hP.frame rfl rfl
        rcases hP'.shrink env ht' hs hl (fun y hy => (hxt y hy).frame rfl fun _ _ _ _ => rfl)
          (by omega) (addRef_nonneg hrt u.1) hone with
          ⟨hroom, s₁, above', hrun, hlen, hS⟩ | ⟨hno, hnone⟩
        · refine Or.inl ⟨hspared.mpr hroom, ?_⟩
          obtain ⟨g, hg⟩ := hS.state
          have hrefs₁ : s₁.refs = (t.addRef u.1 1).refs := hg ▸ rfl
          have hroot₁ : s₁.root = s.root := hg ▸ rfl
          have hfresh₁ : s₁.fresh = s.fresh := hg ▸ rfl
          have hconfig₁ : s₁.config = s.config := hg ▸ rfl
          have hheight₁ : s₁.super.height = s.super.height := hg ▸ rfl
          have hz₁ : Single s₁ level z := hz.frame hconfig₁ (hS.low z.1 page hp hpl.le)
          have hb₁ : s₁.super.blockSize < 2 ^ 32 :=
            (congrArg (fun c : Config => c.geometry.blockSize) hconfig₁).trans_lt hb
          obtain ⟨s₂, hdrop, hw, hrefs⟩ :=
            hz₁.drop_release env hb₁ hS.resident huz hr hrz hrefs₁
          refine ⟨s₂, above', ?_, hlen, hw.settled (fun y ypage hy hle _ => ?_) hrefs hconfig₁,
            hw.index hz₁ hS.index, hw.absent hS.absent, hw.root.trans hroot₁,
            hw.fresh.trans hfresh₁, hw.height.trans hheight₁⟩
          · obtain ⟨s₃, h₃, h₄⟩ := Option.bind_eq_some_iff.mp hdrop
            rw [hstep, ← Option.bind_assoc, hrun, Option.bind_some, Option.bind_some, h₃,
              Option.bind_some, if_neg Bool.false_ne_true, h₄]
            rfl
          · exact hS.low y ypage hy hle
        · refine Or.inr ⟨mt hspared.mp hno, Or.inl ?_⟩
          rw [hstep, ← Option.bind_assoc, hnone, Option.bind_none, Option.bind_none]

end Btree

end Carthage
