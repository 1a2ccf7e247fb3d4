import Carthage.BtreeSearch

/-!
# Updating separators

`__btree_twigs_update` renames a key in every level above a node, and changes nothing else
but update flags.
-/

namespace Carthage

namespace Btree

variable {K D : Type} {s s' s'' : Btree K D} {E : Prop} {level x y : ℕ}
  {xs ys cs : List (ℕ × K)} {above : List (List (ℕ × K))} {z : ℕ × K}

@[simp] theorem setNode_config (s : Btree K D) (x : ℕ) (node : BtNode K) :
    (s.setNode x node).config = s.config := rfl

theorem setNode_heap_self (s : Btree K D) (x : ℕ) (node : BtNode K) :
    (s.setNode x node).heap x = some node := Function.update_self _ _ _

theorem setNode_heap_ne (s : Btree K D) {x z : ℕ} (h : z ≠ x) (node : BtNode K) :
    (s.setNode x node).heap z = s.heap z := Function.update_of_ne h _ _

/-- Only twigs above a level have changed, and no space accounting. -/
structure Retwig (level : ℕ) (s s' : Btree K D) : Prop where
  heap : ∃ h, s' = { s with heap := h }
  low : ∀ z page, s.page z = some page → page.level ≤ level → s'.heap z = s.heap z
  absent : ∀ z, s.heap z = none → s'.heap z = none
  page : ∀ z page, s.page z = some page →
    ∃ page', s'.page z = some page' ∧ page'.level = page.level ∧ page'.free = page.free
  names : ∀ z l cs, TwigAt False s z l cs →
    ∃ cs', TwigAt False s' z l cs' ∧ cs'.map Prod.fst = cs.map Prod.fst

namespace Retwig

theorem refl (level : ℕ) (s : Btree K D) : Retwig level s s :=
  ⟨⟨s.heap, rfl⟩, fun _ _ _ _ => rfl, fun _ h => h, fun _ page h => ⟨page, h, rfl, rfl⟩,
    fun _ _ cs h => ⟨cs, h, rfl⟩⟩

theorem trans (h : Retwig level s s') (h' : Retwig level s' s'') : Retwig level s s'' := by
  refine ⟨?_, fun z page hp hl => ?_, fun z hz => h'.absent z (h.absent z hz),
    fun z page hp => ?_, fun z l cs hz => ?_⟩
  · obtain ⟨g, rfl⟩ := h.heap
    obtain ⟨g', rfl⟩ := h'.heap
    exact ⟨g', rfl⟩
  · obtain ⟨page', hp', hl', -⟩ := h.page z page hp
    rw [h'.low z page' hp' (hl' ▸ hl), h.low z page hp hl]
  · obtain ⟨page', hp', hl', hf'⟩ := h.page z page hp
    obtain ⟨page'', hp'', hl'', hf''⟩ := h'.page z page' hp'
    exact ⟨page'', hp'', hl''.trans hl', hf''.trans hf'⟩
  · obtain ⟨cs', hz', hnames⟩ := h.names z l cs hz
    obtain ⟨cs'', hz'', hnames'⟩ := h'.names z l cs' hz'
    exact ⟨cs'', hz'', hnames'.trans hnames⟩

theorem mono {l : ℕ} (h : Retwig level s s') (hl : l ≤ level) : Retwig l s s' :=
  ⟨h.heap, fun z page hp hle => h.low z page hp (hle.trans hl), h.absent, h.page, h.names⟩

theorem config (h : Retwig level s s') : s'.config = s.config := by
  obtain ⟨g, rfl⟩ := h.heap
  rfl

theorem refs (h : Retwig level s s') : s'.refs = s.refs := by
  obtain ⟨g, rfl⟩ := h.heap
  rfl

theorem root (h : Retwig level s s') : s'.root = s.root := by
  obtain ⟨g, rfl⟩ := h.heap
  rfl

theorem super (h : Retwig level s s') : s'.super = s.super := by
  obtain ⟨g, rfl⟩ := h.heap
  rfl

theorem mallocs (h : Retwig level s s') : s'.mallocs = s.mallocs := by
  obtain ⟨g, rfl⟩ := h.heap
  rfl

theorem rooted (h : Retwig level s s') {l : ℕ} (hl : l ≤ level) (hx : Rooted s l x) :
    Rooted s' l x :=
  hx.frame h.config (fun z page hp hle => h.low z page hp (hle.trans hl))

theorem twigAt (h : Retwig level s s') {l : ℕ} (hl : l ≤ level) (hx : TwigAt E s x l cs) :
    TwigAt E s' x l cs := by
  obtain ⟨page, hp, hpl, -⟩ := hx.page_items
  exact hx.frame h.config (h.low x page hp (hpl.trans_le hl))

end Retwig

/-- The addresses of the nodes of each level. -/
def names (above : List (List (ℕ × K))) : List (List ℕ) := above.map (List.map Prod.fst)

/-- `Q` holds of the level and the address of each twig of the levels above. -/
def EachTwig (Q : ℕ → ℕ → Prop) : ℕ → List (List ℕ) → Prop
  | _, [] => True
  | level, ys :: above => (∀ y ∈ ys, Q (level + 1) y) ∧ EachTwig Q (level + 1) above

theorem EachTwig.imp {Q Q' : ℕ → ℕ → Prop} {addresses : List (List ℕ)}
    (h : EachTwig Q level addresses) (hQ : ∀ l y, level < l → Q l y → Q' l y) :
    EachTwig Q' level addresses := by
  induction addresses generalizing level with
  | nil => trivial
  | cons ys addresses ih =>
      exact ⟨fun y hy => hQ _ y (Nat.lt_succ_self level) (h.1 y hy),
        ih h.2 fun l y hl => hQ l y (Nat.lt_of_succ_lt hl)⟩

theorem EachTwig.and {Q Q' : ℕ → ℕ → Prop} {addresses : List (List ℕ)}
    (h : EachTwig Q level addresses) (h' : EachTwig Q' level addresses) :
    EachTwig (fun l y => Q l y ∧ Q' l y) level addresses := by
  induction addresses generalizing level with
  | nil => trivial
  | cons ys addresses ih => exact ⟨fun y hy => ⟨h.1 y hy, h'.1 y hy⟩, ih h.2 h'.2⟩

theorem EachTwig.of_all {Q : ℕ → ℕ → Prop} (addresses : List (List ℕ))
    (hQ : ∀ l y, level < l → Q l y) : EachTwig Q level addresses := by
  induction addresses generalizing level with
  | nil => trivial
  | cons ys addresses ih =>
      exact ⟨fun y _ => hQ _ y (Nat.lt_succ_self level), ih fun l y hl => hQ l y (Nat.lt_of_succ_lt hl)⟩

section Rename

variable [DecidableEq K]

/-- A separator after `old` was renamed to `new`. -/
def rename (old new : K) (z : ℕ × K) : ℕ × K := (z.1, if z.2 = old then new else z.2)

theorem rename_of_ne {old new : K} (h : z.2 ≠ old) : rename old new z = z := by
  rw [rename, if_neg h]

theorem map_rename_of_ne {old new : K} (h : ∀ z ∈ xs, z.2 ≠ old) :
    xs.map (rename old new) = xs :=
  (List.map_congr_left fun z hz => rename_of_ne (h z hz)).trans (List.map_id _)

theorem map_rename_self (old : K) : xs.map (rename old old) = xs := by
  refine (List.map_congr_left fun z _ => ?_).trans (List.map_id _)
  rw [rename]
  split_ifs with h
  · rw [← h]
    rfl
  · rfl

@[simp] theorem names_rename (old new : K) :
    names (above.map (List.map (rename old new))) = names above := by
  simp only [names, List.map_map]
  refine List.map_congr_left fun ys _ => ?_
  rw [Function.comp_apply, List.map_map]
  rfl

/-- In the twigs of the levels above, the separator `old` has become `new`. -/
def Renames (E : Prop) (s s' : Btree K D) (old new : K) (level : ℕ)
    (above : List (List (ℕ × K))) : Prop :=
  EachTwig (fun l y => ∀ cs, TwigAt E s y l cs → TwigAt E s' y l (cs.map (rename old new)))
    level (names above)

end Rename

theorem setToUpdate_twig (h : TwigAt E s x level cs) : ∃ node, s.heap x = some node ∧
    s.setToUpdate x = some (s.setNode x { node with update := true }) ∧
    TwigAt E (s.setNode x { node with update := true }) x level cs := by
  obtain ⟨node, hx, ⟨t⟩⟩ := h
  refine ⟨node, hx, by simp [setToUpdate, hx], _, setNode_heap_self _ _ _, ⟨?_⟩⟩
  exact ⟨{ t.toTwigBody with data := t.data, array := t.array }, t.keeps⟩

theorem twigReplace_twig {i : ℕ} (h : TwigAt E s x level cs) (hi : cs[i]? = some z) (key : K)
    (value : NodePointer) : ∃ node crc twig twig', s.heap x = some node ∧
    node.data = some ⟨crc, level, .twig twig⟩ ∧ twig'.free = twig.free ∧
    s.twigReplace x i key value = some (s.putTwig x node ⟨crc, level, .twig twig⟩ twig') ∧
    TwigAt E (s.putTwig x node ⟨crc, level, .twig twig⟩ twig') x level (cs.set i (z.1, key)) := by
  obtain ⟨node, hx, ⟨t⟩⟩ := h
  have hlt : i < cs.length := (List.getElem?_eq_some_iff.mp hi).1
  have hlen : t.twig.entries.length = cs.length := by
    simpa using congrArg List.length t.keys
  refine ⟨node, t.crc, t.twig, { t.twig with entries := t.twig.entries.set i (key, value) },
    hx, t.data, rfl, ?_, _, setNode_heap_self _ _ _, ⟨?_⟩⟩
  · simp only [twigReplace, hx, t.data, Page.twig?, Option.bind_eq_bind, Option.bind_some,
      if_pos (hlen ▸ hlt), Option.pure_def]
  · refine ⟨{ t.toTwigBody with
      twig := { t.twig with entries := t.twig.entries.set i (key, value) }
      data := rfl
      keys := ?_
      array := t.array
      within := ?_
      linked := ?_
      free := ?_ }, Or.inl rfl⟩
    · rw [List.map_set, List.map_set, t.keys]
    · rw [List.length_set]
      exact t.within
    · rw [List.length_set, t.linked, List.map_set]
      have hself : (cs.map (fun x => some x.1))[i]? = some (some z.1) := by
        rw [List.getElem?_map, hi]
        rfl
      obtain ⟨hb, hget⟩ := List.getElem?_eq_some_iff.mp hself
      rw [← hget]
      exact (List.set_getElem_self hb).symm
    · rw [List.length_set]
      exact t.free

theorem retwig_setNode {node : BtNode K} {page page' : Page K} {cs' : List (ℕ × K)}
    (hx : s.page x = some page) (hl : level < page.level) (hdata : node.data = some page')
    (hlevel : page'.level = page.level) (hfree : page'.free = page.free)
    (ht : TwigAt E s x page.level cs) (ht' : TwigAt E (s.setNode x node) x page.level cs')
    (hnames : cs'.map Prod.fst = cs.map Prod.fst) : Retwig level s (s.setNode x node) := by
  have hsome : s.heap x ≠ none := by
    intro hno
    simp [Btree.page, hno] at hx
  refine ⟨⟨_, rfl⟩, fun z p hp hle => ?_, fun z hz => ?_, fun z p hp => ?_, fun z l c hz => ?_⟩
  · by_cases hzx : z = x
    · subst hzx
      rw [hx] at hp
      obtain rfl := Option.some.inj hp
      omega
    · exact setNode_heap_ne s hzx node
  · by_cases hzx : z = x
    · subst hzx
      exact (hsome hz).elim
    · rw [setNode_heap_ne s hzx, hz]
  · by_cases hzx : z = x
    · subst hzx
      rw [hx] at hp
      obtain rfl := Option.some.inj hp
      refine ⟨page', ?_, hlevel, hfree⟩
      simp [Btree.page, setNode_heap_self, hdata]
    · refine ⟨p, ?_, rfl, rfl⟩
      rw [← hp]
      simp [Btree.page, setNode_heap_ne s hzx]
  · by_cases hzx : z = x
    · subst hzx
      obtain ⟨rfl, rfl⟩ := ht.unique hz
      exact ⟨cs', ht'.weaken, hnames⟩
    · exact ⟨c, hz.frame rfl (setNode_heap_ne s hzx node), rfl⟩

theorem setNode_setNode (s : Btree K D) (x : ℕ) (node node' : BtNode K) :
    (s.setNode x node).setNode x node' = s.setNode x node' := by
  simp only [setNode, Function.update_idem]

variable [LinearOrder K] {old new : K}

theorem located_holds {U V : List (ℕ × K)} {u : ℕ × K} (hu : Locates ys old U u V)
    (hg : Groups E s (level + 1) xs ys) (hs : Rising Prod.snd xs)
    (hc : TwigAt E s u.1 (level + 1) cs) (hz : z ∈ xs) (hold : z.2 = old) : z ∈ cs := by
  obtain ⟨A, c', B, w, rfl, hc', -, -, -, -, -, hA, hB⟩ := hg.located hs hu
  obtain rfl := (hc.unique hc').2
  rcases List.mem_append.mp hz with hz | hz
  · rcases List.mem_append.mp hz with hz | hz
    · exact absurd hold (hA z hz).ne
    · exact hz
  · exact absurd hold (hB z hz).1.ne'

theorem set_rename (hs : Rising Prod.snd cs) (hz : z ∈ cs) (new : K) :
    cs[rank (cs.map Prod.snd) z.2]? = some z ∧
      cs.set (rank (cs.map Prod.snd) z.2) (z.1, new) = cs.map (rename z.2 new) := by
  obtain ⟨c1, c2, rfl, hrank⟩ := rank_of_mem hs hz
  obtain ⟨h1, h2, hcross⟩ := List.pairwise_append.mp hs
  obtain ⟨hz2, -⟩ := List.pairwise_cons.mp h2
  rw [hrank]
  constructor
  · rw [List.getElem?_append_right (Nat.le_refl _)]
    simp
  · rw [List.set_append_right _ _ (Nat.le_refl _), Nat.sub_self, List.set_cons_zero,
      List.map_append, List.map_cons,
      map_rename_of_ne (fun x hx => (hcross x hx z List.mem_cons_self).ne),
      map_rename_of_ne (fun x hx => (hz2 x hx).ne'), rename, if_pos rfl]

theorem Groups.rename {l : ℕ} (h : Groups E s l xs ys) (hs : Rising Prod.snd xs)
    (hmono : ∀ u ∈ ys, ∀ cs, TwigAt E s u.1 l cs → Rising Prod.snd cs → (∀ x ∈ cs, x ∈ xs) →
      TwigAt E s' u.1 l (cs.map (Btree.rename old new))) :
    Groups E s' l (xs.map (Btree.rename old new)) (ys.map (Btree.rename old new)) := by
  induction h with
  | nil => exact .nil
  | @cons y cs xs ys z hc hz _ ih =>
      obtain ⟨hcs, hxs, -⟩ := List.pairwise_append.mp hs
      have hlast : (cs.map (Btree.rename old new)).getLast? = some (Btree.rename old new z) := by
        rw [List.getLast?_map, hz]
        rfl
      rw [List.map_append, List.map_cons]
      have hgroup := hmono (y, z.2) List.mem_cons_self cs hc hcs fun x hx => by simp [hx]
      refine Grouped.cons (P := fun y cs => TwigAt E s' y l cs) hgroup hlast
        (ih hxs fun u hu cs hc hcs hsub => ?_)
      exact hmono u (List.mem_cons_of_mem _ hu) cs hc hcs
        fun x hx => List.mem_append_right _ (hsub x hx)

variable (env : BtreeEnv K D)

/-- What the loop does at one level: flag the twig found, and rename its separator. The new key is
read only for a separator that is found. -/
theorem twigsUpdate_step (h : Index E s level xs (ys :: above)) (hs : Rising Prod.snd xs)
    (hl : 1 ≤ level) (hfit : level + above.length + 1 < 2 ^ 8) (hr : 0 ≤ s.refs) {newKey : Option K}
    (hnew : newKey = some new ∨ ∀ z ∈ xs, z.2 ≠ old) :
    ∃ s₁, (∀ n, twigsUpdateLoop env old newKey (n + 1) level s =
        twigsUpdateLoop env old newKey n (level + 1) s₁) ∧
      Retwig level s s₁ ∧
      (∀ v ∈ ys, ∀ cs, TwigAt E s v.1 (level + 1) cs →
        TwigAt E s₁ v.1 (level + 1) (cs.map (rename old new))) ∧
      ∀ y l cs, level + 1 < l → TwigAt E s y l cs → TwigAt E s₁ y l cs := by
  obtain ⟨U, u, V, cs, w, place, hloc, hc, hw, hwu, hcs, hidx, hfound, hlook⟩ :=
    h.lookup_twig env hs hl hfit hr old noPlace
  obtain ⟨hg, hi⟩ := h
  have hys := hg.rising hs
  have hu : u ∈ ys := by simp [hloc.split]
  have hc₀ : TwigAt E (s.addRef u.1 1) u.1 (level + 1) cs := hc.frame rfl rfl
  obtain ⟨node, hnode, hset, hc₁⟩ := setToUpdate_twig hc₀
  obtain ⟨crc, twig, hpage, hkeys, -⟩ := hc.page
  have hndata : node.data = some ⟨crc, level + 1, .twig twig⟩ := by
    have hn : s.heap u.1 = some node := hnode
    simpa [Btree.page, hn] using hpage
  -- Whatever the new node is, the other groups are those of the old state.
  have hfinish : ∀ node' page', node'.data = some page' → page'.level = level + 1 →
      page'.free = twig.free →
      TwigAt E (s.setNode u.1 node') u.1 (level + 1) (cs.map (rename old new)) →
      Retwig level s (s.setNode u.1 node') ∧
      (∀ v ∈ ys, ∀ cs, TwigAt E s v.1 (level + 1) cs →
        TwigAt E (s.setNode u.1 node') v.1 (level + 1) (cs.map (rename old new))) ∧
      ∀ y l cs, level + 1 < l → TwigAt E s y l cs → TwigAt E (s.setNode u.1 node') y l cs := by
    intro node' page' hdata' hlevel' hfree' hc'
    have hother : ∀ y l c', TwigAt E s y l c' → y ≠ u.1 → TwigAt E (s.setNode u.1 node') y l c' :=
      fun y l c' hy hne => hy.frame rfl (setNode_heap_ne s hne node')
    have hnames : (cs.map (rename old new)).map Prod.fst = cs.map Prod.fst := by
      rw [List.map_map]
      rfl
    refine ⟨retwig_setNode hpage (by simp) hdata' hlevel' hfree' hc hc' hnames, ?_,
      fun y l c' hlt hy => ?_⟩
    · intro v hv d hd
      obtain ⟨d', w', hd', -, -, hsub⟩ := hg.group hv
      rw [← (hd.unique hd').2] at hsub
      by_cases hvu : v.1 = u.1
      · rw [hvu] at hd ⊢
        obtain rfl := (hd.unique hc).2
        exact hc'
      · rw [map_rename_of_ne]
        · exact hother _ _ _ hd hvu
        · intro z hz hzold
          have hzc := located_holds hloc hg hs hc (hsub z hz) hzold
          have huv := hg.group_unique (fun _ _ _ h h' => (h.unique h').2) hs hv hu hd hc hz hzc
          exact hvu (congrArg Prod.fst huv)
    · refine hother y l c' hy ?_
      rintro rfl
      have := (hy.unique hc).1
      omega
  by_cases hmem : old ∈ cs.map Prod.snd
  · obtain ⟨z, hz, hzold⟩ := List.mem_map.mp hmem
    obtain ⟨d, w', hd, -, -, hsub⟩ := hg.group hu
    rw [(hd.unique hc).2] at hsub
    obtain rfl := hnew.resolve_right fun hno => hno z (hsub z hz) hzold
    obtain ⟨hget, hrename⟩ := set_rename hcs hz new
    rw [hzold] at hget hrename
    have hlen : twig.entries.length = cs.length := by simpa using congrArg List.length hkeys
    obtain ⟨hidxlt, -⟩ := List.getElem?_eq_some_iff.mp hget
    obtain ⟨e, he⟩ : ∃ e, twig.entries[rank (cs.map Prod.snd) old]? = some e :=
      ⟨_, List.getElem?_eq_getElem (hlen ▸ hidxlt)⟩
    obtain ⟨node₁, crc₁, twig₁, twig₂, hn₁, hd₁, hfree₁, hrep, hc₂⟩ :=
      twigReplace_twig hc₁ hget new e.2
    rw [setNode_heap_self] at hn₁
    obtain rfl := Option.some.inj hn₁
    obtain ⟨rfl, htwig⟩ : crc = crc₁ ∧ twig = twig₁ := by simpa [hndata] using hd₁
    subst htwig
    rw [putTwig, setNode_setNode] at hrep hc₂
    rw [hrename] at hc₂
    let node' : BtNode K :=
      { node with data := some ⟨crc, level + 1, .twig twig₂⟩, dirty := true, update := true }
    have hc₃ : TwigAt E (s.setNode u.1 node') u.1 (level + 1) (cs.map (rename old new)) :=
      hc₂.frame rfl rfl
    refine ⟨s.setNode u.1 node', fun n => ?_,
      hfinish node' ⟨crc, level + 1, .twig twig₂⟩ rfl rfl hfree₁ hc₃⟩
    have hpage₁ : ((s.addRef u.1 1).setNode u.1 { node with update := true }).page u.1 =
        some ⟨crc, level + 1, .twig twig⟩ := by
      simp only [Btree.page, setNode_heap_self, Option.bind_eq_bind, Option.bind_some, hndata]
    rw [twigsUpdateLoop]
    simp only [hlook, hset, hfound, decide_eq_true hmem, hpage₁, Page.twig?, hidx, he, hrep,
      Option.bind_eq_bind, Option.bind_some, if_true]
    change (btnodeRelease env ((s.setNode u.1 node').addRef u.1 1) u.1).bind _ = _
    rw [btnodeRelease_added env hc₃.resident hr, Option.bind_some]
  · let node' : BtNode K := { node with update := true }
    have hc₃ : TwigAt E (s.setNode u.1 node') u.1 (level + 1) (cs.map (rename old new)) := by
      rw [map_rename_of_ne fun z hz hzold => hmem (List.mem_map.mpr ⟨z, hz, hzold⟩)]
      exact hc₁.frame rfl rfl
    refine ⟨s.setNode u.1 node', fun n => ?_,
      hfinish node' ⟨crc, level + 1, .twig twig⟩ hndata rfl rfl hc₃⟩
    rw [twigsUpdateLoop]
    simp only [hlook, hset, hfound, decide_eq_false hmem, Option.bind_eq_bind, Option.bind_some,
      Bool.false_eq_true, if_false]
    change (btnodeRelease env ((s.setNode u.1 node').addRef u.1 1) u.1).bind _ = _
    rw [btnodeRelease_added env hc₃.resident hr, Option.bind_some]

theorem twigsUpdateLoop_spec (h : Index E s level xs above) (hs : Rising Prod.snd xs) (hl : 1 ≤ level)
    (hx : ∀ z ∈ xs, Rooted s level z.1) (hfit : level + above.length < 2 ^ 8) (hr : 0 ≤ s.refs)
    {newKey : Option K} (hnew : newKey = some new ∨ ∀ z ∈ xs, z.2 ≠ old) {n : ℕ}
    (hn : above.length < n) :
    ∃ s', twigsUpdateLoop env old newKey n level s = some s' ∧ Retwig level s s' ∧
      Index E s' level (xs.map (rename old new)) (above.map (List.map (rename old new))) ∧
      Renames E s s' old new level above := by
  induction above generalizing s level xs n with
  | nil =>
      obtain ⟨m, rfl⟩ : ∃ m, n = m + 1 := ⟨n - 1, by omega⟩
      obtain ⟨z, rfl, hroot⟩ := h
      obtain ⟨place, hlook⟩ := lookup_above env hroot (hx z (by simp)) (by simpa using hfit)
        (Nat.lt_succ_self level) hr old noPlace
      refine ⟨s, ?_, .refl level s, ⟨_, rfl, hroot⟩, trivial⟩
      rw [twigsUpdateLoop]
      simp only [hlook, Option.bind_eq_bind, Option.bind_some, Option.pure_def]
  | cons ys above ih =>
      rw [List.length_cons] at hfit hn
      obtain ⟨m, rfl⟩ : ∃ m, n = m + 1 := ⟨n - 1, by omega⟩
      obtain ⟨s₁, hloop, hre, heach, habove⟩ :=
        twigsUpdate_step env h hs hl (by omega) hr hnew
      obtain ⟨hg₀, hi⟩ := h
      have hg : Groups E s₁ (level + 1) (xs.map (rename old new)) (ys.map (rename old new)) :=
        hg₀.rename hs fun u hu cs hc _ _ => heach u hu cs hc
      have hi₁ : Index E s₁ (level + 1) ys above := hi.mono hre.root habove
      have hx₁ : ∀ u ∈ ys, Rooted s₁ (level + 1) u.1 := fun u hu => by
        refine hg.rooted hl (fun z hz => ?_) (rename old new u) (List.mem_map_of_mem hu)
        obtain ⟨z', hz', rfl⟩ := List.mem_map.mp hz
        exact hre.rooted le_rfl (hx z' hz')
      have hnew₁ : newKey = some new ∨ ∀ u ∈ ys, u.2 ≠ old := hnew.imp_right fun hno u hu => by
        obtain ⟨cs, w, -, hw, hwu, hsub⟩ := hg₀.group hu
        rw [← hwu]
        exact hno w (hsub w (List.mem_of_getLast? hw))
      obtain ⟨s', hrun, hre', hi', hrest⟩ := ih hi₁ (hg₀.rising hs) (by omega) hx₁ (by omega)
        (hre.refs ▸ hr) hnew₁ (n := m) (by omega)
      refine ⟨s', (hloop m).trans hrun, hre.trans (hre'.mono (Nat.le_succ level)),
        ⟨hg.mono fun y _ cs hy => hre'.twigAt le_rfl hy, hi'⟩, fun y hy cs hc => ?_,
        EachTwig.imp hrest fun l y hl hmap cs hc => hmap cs (habove y l cs hl hc)⟩
      obtain ⟨u, hu, rfl⟩ := List.mem_map.mp hy
      exact hre'.twigAt le_rfl (heach u hu cs hc)

end Btree

end Carthage
