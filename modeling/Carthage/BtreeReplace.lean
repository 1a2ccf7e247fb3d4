import Carthage.BtreeInsertNew

/-!
# Replacing a value by one of another size

`btree_insert` with a key that the tree has. Without room for the new value the item is removed
and the leaf is split for it; the labels above are not told of the removal. With room for it
`__leaf_replace` leaves the old size in the item head.
-/

namespace Carthage

namespace LeafPage

variable {K : Type} {g : Geometry} {p p' : LeafPage K} {i size : ℕ}

theorem layout_heads (e : ℕ) (I : List (K × List UInt8)) :
    (layout e I).map (fun s => (s.key, s.size)) = I.map fun x => (x.1, x.2.length) := by
  induction I generalizing e with
  | nil => rfl
  | cons x I ih => simp [layout, ih]

theorem replace_heads (h : p.replace g i size = some p') :
    p'.slots.map (fun s => (s.key, s.size)) = p.slots.map fun s => (s.key, s.size) := by
  simp only [replace, Option.bind_eq_bind, Option.pure_def] at h
  obtain ⟨slot, -, h⟩ := Option.bind_eq_some_iff.mp h
  obtain ⟨mem, -, h⟩ := Option.bind_eq_some_iff.mp h
  obtain rfl := Option.some.inj h
  have hmoved : ∀ (move : ℕ → ℕ) (slots : List (LeafSlot K)),
      (moveOffsets slots move).map (fun s => (s.key, s.size)) =
        slots.map fun s => (s.key, s.size) := fun move slots => by
    rw [moveOffsets, List.map_map]
    rfl
  rw [List.map_append, hmoved, ← List.map_append, List.take_append_drop]

end LeafPage

namespace Btree

variable {K D : Type} {s s' t t' : Btree K D} {x i size : ℕ} {q : K} {value old : List UInt8}
  {L L' A B C C' I I₁ I₂ : List (K × List UInt8)} {xs pre post : List (ℕ × K)}
  {above above' : List (List (ℕ × K))} {z : ℕ × K} {c w u : K × List UInt8} {place place' : Place}

theorem leafRemove_spec (h : LeafAt s x (C ++ c :: C')) (hb : s.super.blockSize < 2 ^ 32)
    (hm : s.super.HeadsMove (C ++ c :: C').length C.length) :
    ∃ s', (∀ y n, (s.addRef y n).leafRemove x C.length = some (s'.addRef y n)) ∧
      Touches [x] s s' ∧ LeafAt s' x (C ++ C') := by
  obtain ⟨node, hx, ⟨t⟩⟩ := h
  have hremove : ∃ leaf, t.leaf.remove s.super.toGeometry C.length = some leaf ∧
      LeafPage.Packed s.super.toGeometry leaf (C ++ C') := t.packed.remove hb hm
  obtain ⟨leaf, hrem, hpacked⟩ := hremove
  obtain ⟨slot, hslot, -⟩ := t.packed.slot
  let node' : BtNode K := { node with data := some ⟨t.crc, 1, .leaf leaf⟩, dirty := true }
  refine ⟨{ s.setNode x node' with
    super := { s.super with
      itemCount := sub64 s.super.itemCount 1
      storedData := sub64 s.super.storedData slot.size } },
    fun y n => ?_, ⟨?_, ?_, rfl, rfl, rfl, rfl, rfl, rfl⟩, node', setNode_heap_self s x node', ⟨?_⟩⟩
  · simp only [leafRemove, addRef, hx, t.data, Page.leaf?, hslot, hrem, Option.bind_eq_bind,
      Option.bind_some, Option.pure_def]
    rfl
  · intro y hy
    exact setNode_heap_ne s (List.ne_of_not_mem_cons hy) node'
  · intro y hy
    rw [List.mem_singleton.mp hy, hx]
    exact Option.some_ne_none node
  · exact ⟨⟨t.crc, leaf, rfl, hpacked⟩, Or.inl rfl⟩

theorem leafRemove_stuck (h : LeafAt s x (C ++ c :: C'))
    (hm : ¬ s.super.HeadsMove (C ++ c :: C').length C.length) (y : ℕ) (n : ℤ) :
    (s.addRef y n).leafRemove x C.length = none := by
  obtain ⟨node, hx, ⟨t⟩⟩ := h
  have hlen : t.leaf.slots.length = (C ++ c :: C').length := t.packed.length
  have hstuck : t.leaf.remove s.super.toGeometry C.length = none := by
    rw [Option.eq_none_iff_forall_ne_some]
    exact fun leaf hrun => hm (hlen ▸ LeafPage.headsMove_of_remove hrun)
  simp only [leafRemove, addRef, hx, t.data, Page.leaf?, hstuck, Option.bind_eq_bind,
    Option.bind_some, Option.bind_none, Option.bind_fun_none]

theorem leafReplace_spec (h : LeafAt s x I) (hrun : s.leafReplace x i size = some s') :
    Touches [x] s s' ∧ ResidentAt s' x ∧ ∃ crc leaf, s'.page x = some ⟨crc, 1, .leaf leaf⟩ ∧
      leaf.slots.map (fun slot => (slot.key, slot.size)) = I.map fun e => (e.1, e.2.length) := by
  obtain ⟨node, hx, ⟨t⟩⟩ := h
  simp only [leafReplace, hx, t.data, Page.leaf?, Option.bind_eq_bind, Option.bind_some,
    Option.pure_def] at hrun
  obtain ⟨leaf, hrep, hrun⟩ := Option.bind_eq_some_iff.mp hrun
  obtain rfl := Option.some.inj hrun
  refine ⟨⟨fun y hy => ?_, fun y hy => ?_, rfl, rfl, rfl, rfl, rfl, rfl⟩,
    ⟨_, setNode_heap_self _ _ _, rfl, Or.inl rfl⟩, t.crc, leaf, ?_, ?_⟩
  · exact setNode_heap_ne s (List.ne_of_not_mem_cons hy) _
  · rw [List.mem_singleton.mp hy, hx]
    exact Option.some_ne_none node
  · simp only [Btree.page, putLeaf, setNode_heap_self, Option.bind_eq_bind, Option.bind_some]
  · rw [LeafPage.replace_heads hrep, t.packed.slots, LeafPage.layout_heads]

variable [LinearOrder K] (env : BtreeEnv K D)

theorem Index.lookup_slot (h : Index True s 1 xs above) (hxs : Rising Prod.snd xs)
    (hres : ∀ v ∈ xs, ResidentAt s v.1) (hfit : above.length + 1 < 2 ^ 8) (hr : 0 ≤ s.refs)
    (hloc : Locates xs q pre z post) {crc : ℕ} {leaf : LeafPage K}
    (hp : s.page z.1 = some ⟨crc, 1, .leaf leaf⟩) (hsearch : leaf.search q = some (true, i))
    {slot : LeafSlot K} (hslot : leaf.slots[i]? = some slot) (size : ℕ) :
    s.btreeLookup env q size = some (leaf.mem.read slot.offset (min size slot.size), s) := by
  have hlevel : ∀ j, 1 < j → j ≤ 1 + above.length → 1 ≠ j := fun j h1 _ => by omega
  obtain ⟨root, P, v, Q, place, hroot, hrr, hloc', -, hloop⟩ :=
    h.descend env hxs le_rfl hlevel hres hr q noPlace
  obtain ⟨-, rfl, -⟩ := hloc.unique hloc'
  have hp' : (s.addRef z.1 1).page z.1 = some ⟨crc, 1, .leaf leaf⟩ := hp
  have hnode : (s.addRef z.1 1).searchNode z.1 q place = some ⟨i, slot.size, true⟩ := by
    simp [searchNode, hp', Page.leaf?, hsearch, hslot]
  have hfuel : maxLevels = (maxLevels - 1 - above.length) + 1 + above.length := by
    have : maxLevels = 2 ^ 8 := rfl
    omega
  have hlook : s.btreeLookupLevel env q 1 noPlace =
      some (some z.1, ⟨i, slot.size, true⟩, s.addRef z.1 1) := by
    rw [btreeLookupLevel_eq env hroot hrr, hfuel, hloop, lookupLoop]
    simp only [hnode, hp', if_true, Option.bind_eq_bind, Option.bind_some, Option.pure_def]
  have hrelease := btnodeRelease_added env (hres z (by simp [hloc.split])) hr
  simp only [btreeLookup, hlook, hp', Page.leaf?, hslot, hrelease, Option.bind_eq_bind,
    Option.bind_some, Bool.not_true, Bool.false_eq_true, if_false, Option.pure_def]

/-- The call returns 0; a lookup of the key then gives the new value, and one of another key what
it gave before. -/
def Replaces (s : Btree K D) (L : List (K × List UInt8)) (q : K) (value : List UInt8)
    (place : Place) : Prop :=
  ∃ s', s.btreeInsert env q value place = some (0, s') ∧ ∀ k size, s'.btreeLookup env k size =
    some ((if k = q then value else (L.lookup k).getD []).take size, s')

theorem not_replaces_of_none (hrun : s.btreeInsert env q value place = none) :
    ¬ Replaces env s L q value place := by
  rintro ⟨s', hrun', -⟩
  rw [hrun] at hrun'
  cases hrun'

theorem insert_hit {r : ℕ} {page : Page K} (value : List UInt8) (hroot : s.root = some r)
    (hlook : s.btreeLookupLevel env q 1 place = some (some x, place', s.addRef x 1))
    (hfound : place'.found = true) (hp : s.page x = some page) (hindex : place'.index < page.items)
    (hsize : place'.size ≠ value.length) :
    s.btreeInsert env q value place =
      if (page.free + s.super.itemNeeded place'.size) % 2 ^ 32 ≥
          s.super.itemNeeded value.length % 2 ^ 32 then
        ((s.addRef x 1).leafReplace x place'.index value.length).bind fun s₁ =>
          (s₁.btnodeRelease env x).bind fun s₂ => some ((0 : ℤ), s₂)
      else
        ((s.addRef x 1).leafRemove x place'.index).bind fun s₁ =>
          (s₁.btreeLeafSplitInsert env x q value).bind fun r =>
            (r.2.btnodeRelease env x).bind fun s₂ => some ((if r.1 ≠ 0 then 2 else 0 : ℤ), s₂) := by
  have hp' : (s.addRef x 1).page x = some page := hp
  unfold btreeInsert
  rw [hroot]
  change (s.btreeLookupLevel env q 1 place).bind _ = _
  rw [hlook, Option.bind_some]
  change ((s.addRef x 1).page x).bind _ = _
  rw [hp', Option.bind_some, hfound]
  simp only [if_true, if_neg hsize, if_pos hindex]
  rfl

theorem LeafFor.hit (hz : LeafFor s L xs q pre z post A (C ++ (q, old) :: C') B) :
    rank ((C ++ (q, old) :: C').map Prod.fst) q = C.length := by
  obtain ⟨-, h2, hcross⟩ := List.pairwise_append.mp hz.rising
  obtain ⟨h2, -⟩ := List.pairwise_cons.mp h2
  rw [List.map_append, rank_split, List.length_map]
  · exact List.forall_mem_map.mpr fun x hx => hcross x hx (q, old) List.mem_cons_self
  · exact List.forall_mem_map.mpr (List.forall_mem_cons.mpr ⟨le_rfl, fun x hx => (h2 x hx).le⟩)

/-- The leaf has room for the new value in place of the old one, whose size stays. -/
theorem replace_in_place (h : Standing s L xs above)
    (hz : LeafFor s L xs q pre z post A (C ++ (q, old) :: C') B) (hsize : old.length ≠ value.length)
    (hrun : s.btreeInsert env q value place =
      ((s.addRef z.1 1).leafReplace z.1 C.length value.length).bind fun s₁ =>
        (s₁.btnodeRelease env z.1).bind fun s₂ => some ((0 : ℤ), s₂)) :
    ¬ Replaces env s L q value place := by
  rintro ⟨s', hrun', hlook⟩
  rw [hrun] at hrun'
  obtain ⟨s₁, hrep, hrun'⟩ := Option.bind_eq_some_iff.mp hrun'
  obtain ⟨s₂, hrelease, hrun'⟩ := Option.bind_eq_some_iff.mp hrun'
  obtain ⟨-, rfl⟩ := Prod.mk.inj (Option.some.inj hrun')
  have hleaf : LeafAt (s.addRef z.1 1) z.1 (C ++ (q, old) :: C') := hz.leaf.frame rfl rfl
  obtain ⟨htouch, hres, crc, leaf, hp, hheads⟩ := leafReplace_spec hleaf hrep
  obtain ⟨hrelease', hrefs⟩ := btnodeRelease_counted env hres h.ready.refs htouch.refs
  obtain rfl := Option.some.inj (hrelease'.symm.trans hrelease)
  have h₀ := h.addRef hz.leaf.resident.heap
  have hindex : Index True (s₁.addRef z.1 (-1)) 1 xs above := by
    have hi := htouch.index (fun y hy => ⟨_, (List.mem_singleton.mp hy) ▸ hleaf.leafIn⟩) h₀.index
    exact hi.mono rfl fun v l cs _ hc => hc.frame rfl rfl
  have hall : ∀ v ∈ xs, ResidentAt (s₁.addRef z.1 (-1)) v.1 := fun v hv => by
    by_cases hvz : v.1 = z.1
    · exact hvz ▸ hres.frame rfl rfl
    · exact (h₀.resident hv).frame htouch.config (htouch.others v.1 (by simpa using hvz))
  have hkeys : leaf.keys = (C ++ (q, old) :: C').map Prod.fst := by
    have heq := congrArg (List.map Prod.fst) hheads
    rw [List.map_map, List.map_map] at heq
    exact heq
  have hsearch : leaf.search q = some (true, C.length) := by
    rw [LeafPage.search, hkeys, indexSearch_spec (rising_map.mp hz.rising), hz.hit,
      decide_eq_true (by simp)]
  obtain ⟨slot, hslot, hhead⟩ : ∃ slot, leaf.slots[C.length]? = some slot ∧
      (slot.key, slot.size) = (q, old.length) := by
    have hat := congrArg (fun l => l[C.length]?) hheads
    simp only [List.getElem?_map, List.getElem?_append_right (Nat.le_refl _), Nat.sub_self,
      List.getElem?_cons_zero, Option.map_some, Option.map_eq_some_iff] at hat
    exact hat
  have hread := hindex.lookup_slot env h.upper.rising hall h.levels (hrefs ▸ h.ready.refs)
    hz.locates hp hsearch hslot (old.length + value.length)
  have hbytes := congrArg (fun r => r.map fun p : List UInt8 × Btree K D => p.1.length)
    ((hlook q (old.length + value.length)).symm.trans hread)
  have hslotsize : slot.size = old.length := congrArg Prod.snd hhead
  simp only [if_true, Option.map_some, List.length_take, Bytes.length_read, hslotsize,
    Option.some.injEq] at hbytes
  omega

/-! ## Without the old item -/

theorem lookup_remove {k : K} (hk : k ≠ q) :
    (A ++ (C ++ (q, old) :: C') ++ B).lookup k = (A ++ (C ++ C') ++ B).lookup k := by
  simp only [List.lookup_append, List.lookup_cons, beq_false_of_ne hk]

theorem LeafFor.around (hz : LeafFor s L xs q pre z post A (C ++ (q, old) :: C') B) :
    (∀ x ∈ A ++ C, x.1 < q) ∧ ∀ x ∈ C' ++ B, q < x.1 := by
  obtain ⟨-, h2, hcross⟩ := List.pairwise_append.mp hz.rising
  obtain ⟨h2, -⟩ := List.pairwise_cons.mp h2
  refine ⟨fun x hx => ?_, fun x hx => ?_⟩
  · rcases List.mem_append.mp hx with hx | hx
    · exact hz.before x hx
    · exact hcross x hx (q, old) List.mem_cons_self
  · rcases List.mem_append.mp hx with hx | hx
    · exact h2 x hx
    · exact (hz.after x hx).1

theorem LeafFor.remaining (hz : LeafFor s L xs q pre z post A (C ++ (q, old) :: C') B) :
    q ∉ (A ++ (C ++ C') ++ B).map Prod.fst := by
  obtain ⟨hbefore, hbehind⟩ := hz.around
  intro hmem
  obtain ⟨x, hx, hxq⟩ := List.mem_map.mp hmem
  have hx' : x ∈ A ++ C ∨ x ∈ C' ++ B := by
    simpa [or_assoc] using hx
  rcases hx' with hx | hx
  · exact (hbefore x hx).ne hxq
  · exact (hbehind x hx).ne' hxq

omit [LinearOrder K] in
theorem Index.alone {E : Prop} (h : Index E s 1 (pre ++ z :: post) []) :
    pre = [] ∧ post = [] ∧ s.root = some z.1 := by
  obtain ⟨v, hv, hroot⟩ := h
  cases pre with
  | nil =>
      obtain ⟨rfl, rfl⟩ := List.cons.inj hv
      exact ⟨rfl, rfl, hroot⟩
  | cons y pre => simp at hv

theorem Standing.remove (h : Standing s L xs above)
    (hz : LeafFor s L xs q pre z post A (C ++ (q, old) :: C') B) (htouch : Touches [z.1] s s')
    (hleaf : LeafAt s' z.1 (C ++ C')) (hne : C ++ C' ≠ []) (hlast : C' ≠ [] ∨ above = []) :
    ∃ w, (C ++ C').getLast? = some w ∧
      Standing s' (A ++ (C ++ C') ++ B) (pre ++ (z.1, w.1) :: post) above := by
  obtain ⟨w, hw⟩ : ∃ w, (C ++ C').getLast? = some w := ⟨_, List.getLast?_eq_some_getLast hne⟩
  have hlabel : C' ≠ [] → w.1 = z.2 := fun hC' => by
    obtain ⟨v, hv, hvz⟩ := hz.last
    rw [List.getLast?_append_of_ne_nil _ hC'] at hw
    rw [List.getLast?_append_of_ne_nil _ (List.cons_ne_nil _ _),
      List.getLast?_cons_of_ne_nil hC', hw] at hv
    rw [Option.some.inj hv, hvz]
  have hindex : Index True s' 1 (pre ++ (z.1, w.1) :: post) above := by
    rcases hlast with hC' | rfl
    · rw [hlabel hC', ← hz.locates.split]
      exact htouch.index (fun y hy => ⟨_, (List.mem_singleton.mp hy) ▸ hz.leaf.leafIn⟩) h.index
    · obtain ⟨rfl, rfl, hroot⟩ := (hz.locates.split ▸ h.index).alone
      exact ⟨_, rfl, htouch.root.trans hroot⟩
  have hrise : Rising Prod.fst (A ++ (C ++ C') ++ B) := by
    have hs := h.rising
    rw [hz.items] at hs
    exact hs.sublist ((((List.sublist_cons_self _ C').append_left C).append_left A).append_right B)
  refine ⟨w, hw, h.relabel hz (htouch.ready h.ready) hleaf hw (fun v hv J hJ => ?_) hindex
    rfl hrise htouch.height⟩
  exact htouch.leafAt (by simpa using hz.ne h.leaves h.rising v hv) hJ

theorem Touches.takes_iff {X : List ℕ} {v : ℕ} (htouch : Touches X s s')
    (hX : ∀ y ∈ X, ∃ items, LeafIn s y items) (h : Index True s 1 xs above) :
    Takes s' 1 above v ↔ Takes s 1 above v := by
  obtain ⟨z, -⟩ := List.exists_mem_of_ne_nil xs h.nonempty
  have hself : above.map (List.map (rename z.2 z.2)) = above :=
    (List.map_congr_left fun ys _ => map_rename_self z.2).trans (List.map_id _)
  have hgeometry : s'.super.toGeometry = s.super.toGeometry :=
    congrArg Config.geometry htouch.config
  have hnames : ∀ y l cs, TwigAt False s y l cs →
      ∃ cs', TwigAt False s' y l cs' ∧ cs'.map Prod.fst = cs.map Prod.fst := fun y l cs hc => by
    refine ⟨cs, hc.frame htouch.config (htouch.others y fun hy => ?_), rfl⟩
    obtain ⟨items, hl⟩ := hX y hy
    obtain ⟨crc, leaf, hp, -⟩ := hl.page
    obtain ⟨crc', twig, hp', -⟩ := hc.page
    rw [hp] at hp'
    cases hp'
  have hcongr := takes_congr h hgeometry hnames (v := v) z.2 z.2
  rwa [hself] at hcongr

/-- The key comes behind all others, and its leaf is split: it goes to the upper half. -/
theorem split_behind (hg : ∀ n, env.granted n = true) (h : Standing s L (pre ++ [z]) above)
    (hfit : above.length + 2 < 2 ^ 8) (hz : LeafFor s L (pre ++ [z]) q pre z [] A (I₁ ++ I₂) B)
    (hhalf : I₁.length = (I₁ ++ I₂).length / 2) (hne : I₂ ≠ []) (hq : ∀ x ∈ L, x.1 < q)
    (hlarge : s.super.itemNeeded value.length ≤ s.super.nodeSpace) {run : Option (ℤ × Btree K D)}
    (hrun : run = ((s.addRef z.1 1).btreeLeafSplitInsert env z.1 q value).bind fun r =>
      (r.2.btnodeRelease env z.1).bind fun s₁ => some ((if r.1 ≠ 0 then 2 else 0 : ℤ), s₁)) :
    (Takes s 1 above z.1 ∧ s.super.HalvesTake I₁ I₂ q value) ∧ (∃ s', run = some (0, s') ∧
      ∀ k size, s'.btreeLookup env k size =
        some ((if k = q then value else (L.lookup k).getD []).take size, s')) ∨
    ¬ (Takes s 1 above z.1 ∧ s.super.HalvesTake I₁ I₂ q value) ∧ run = none := by
  have hr := h.ready.refs
  obtain ⟨r, hreq, hgr⟩ := h.index.granted hg hz.next_mem (s.mallocs + 2)
  have hlinks := leafSplitInsert_links env ⟨hg _, hg _⟩ h hreq hgr hfit hz hhalf hne value (q := q)
  rw [List.headD_nil] at hlinks
  rcases hlinks with
    ⟨hno, hnone⟩ | ⟨htakes, w, t, above', hw, hsplit, hstand, hleft, hright, hrefs, hconfig, -⟩
  · refine Or.inr ⟨fun hT => hno ⟨hT.1, hT.2.1⟩, ?_⟩
    rw [hrun, hnone, Option.bind_none]
  obtain ⟨u, hu⟩ : ∃ u, I₂.head? = some u := Option.isSome_iff_exists.mp (by simpa using hne)
  have hgeometry : t.super.toGeometry = s.super.toGeometry := congrArg Config.geometry hconfig
  rw [hsplit] at hrun
  rw [← hgeometry] at hlarge ⊢
  have hI₁ : I₁ ≠ [] := List.ne_nil_of_mem (List.mem_of_getLast? hw)
  obtain ⟨-, hs₂, -⟩ := List.pairwise_append.mp hz.rising
  have hitems : ∀ x ∈ I₁ ++ I₂, x.1 < q := fun x hx => by
    apply hq
    rw [hz.items]
    simp only [List.mem_append] at hx ⊢
    tauto
  have hupper : ∀ x ∈ I₂, x.1 < q := fun x hx => hitems x (List.mem_append_right I₁ hx)
  have huq : u.1 < q := hupper u (List.mem_of_head? hu)
  have hiff : t.super.HalvesTake I₁ I₂ q value ↔ t.super.Fits I₂ value := by
    constructor
    · rintro ⟨-, ⟨⟨x, hx, hqx⟩, -⟩ | ⟨-, hfits⟩⟩
      · exact absurd (hitems x (List.mem_append_left I₂ hx)) hqx.not_gt
      · exact hfits
    · exact fun hfits => ⟨hI₁, Or.inr ⟨⟨u, List.mem_of_head? hu, huq⟩, hfits⟩⟩
  rw [and_iff_right htakes, hiff]
  rcases put_last env hstand.upper hstand.ready hstand.levels (fun _ => ⟨hg _, hg _⟩) hright hu (if_neg huq.not_gt) hright
    hs₂ hne hupper hr hrefs hlarge with ⟨hfull, hnone⟩ | ⟨hfits, t', hsome, hput⟩
  · exact Or.inr ⟨hfull, by rw [hrun, hnone, Option.bind_none]⟩
  have hneq : z.1 ≠ s.fresh := h.ready.blank.ne_fresh hz.leaf.resident.heap
  obtain ⟨-, hrefs₁⟩ := btnodeRelease_counted env hput.leaf.resident (addRef_nonneg hr z.1)
    (hput.refs.trans hrefs)
  have hleft' : LeafAt (t'.addRef s.fresh (-1)) z.1 I₁ :=
    (hput.others z.1 I₁ hneq hleft).frame rfl rfl
  obtain ⟨hrelease, hrefs₂⟩ := btnodeRelease_counted env hleft'.resident hr hrefs₁
  refine Or.inl ⟨hfits, (t'.addRef s.fresh (-1)).addRef z.1 (-1), ?_, fun k size => ?_⟩
  · rw [hrun, hsome, Option.bind_some, hrelease]
    rfl
  have hr₂ : 0 ≤ ((t'.addRef s.fresh (-1)).addRef z.1 (-1)).refs := hrefs₂.symm ▸ hr
  by_cases hk : k = q
  · have hloc : Locates (pre ++ [(z.1, w.1), (s.fresh, z.2)]) q (pre ++ [(z.1, w.1)])
        (s.fresh, z.2) [] := by
      refine ⟨by simp, fun v hv => ?_, Or.inr rfl⟩
      rcases List.mem_append.mp hv with hv | hv
      · exact hz.locates.before v hv
      · rw [List.mem_singleton.mp hv]
        exact hitems w (List.mem_append_left I₂ (List.mem_of_getLast? hw))
    rw [if_pos hk, hk]
    exact hput.lookup_self env hstand hs₂ hupper hr₂ hloc rfl size
  · rw [if_neg hk]
    exact hput.lookup_other env hstand hright hs₂ hupper hr₂ hk size

/-! ## A label that nothing lowers -/

theorem LeafFor.labels {m : K × List UInt8} (h : Standing s L xs above)
    (hz : LeafFor s L xs q pre z post A (I ++ [(q, old)]) B) (hm : m ∈ I) :
    m.1 < q ∧ z.2 = q ∧ (∀ v ∈ pre, v.2 < m.1) ∧ ∀ v ∈ post, q < v.2 := by
  obtain ⟨hbefore, -⟩ := hz.around
  have hzq : z.2 = q := by
    obtain ⟨v, hv, hvz⟩ := hz.last
    rw [List.getLast?_concat] at hv
    rw [← hvz, ← Option.some.inj hv]
  have hlabels := h.upper.rising
  rw [hz.locates.split] at hlabels
  obtain ⟨-, htail, -⟩ := List.pairwise_append.mp hlabels
  refine ⟨hbefore m (List.mem_append_right A hm), hzq, fun v hv => ?_, fun v hv => ?_⟩
  · obtain ⟨c, w, -, hw, hwv, hsub⟩ := Grouped.group hz.left hv
    have hs := h.rising
    rw [hz.items, List.append_assoc] at hs
    rw [← hwv]
    refine (List.pairwise_append.mp hs).2.2 w (hsub w (List.mem_of_getLast? hw)) m ?_
    simp [hm]
  · exact hzq ▸ (List.pairwise_cons.mp htail).1 v hv

/-- A leaf `z` that is left the lower half of its items, with the upper half linked before it. -/
structure SwappedAt (t : Btree K D) (pre : List (ℕ × K)) (f : ℕ) (k : K) (z : ℕ × K)
    (post : List (ℕ × K)) (above : List (List (ℕ × K))) (I₁ I₂ : List (K × List UInt8)) : Prop where
  upper : Upper t 1 (pre ++ (f, k) :: z :: post) above
  ready : Ready t
  levels : above.length + 1 < 2 ^ 8
  left : LeafAt t z.1 I₁
  right : LeafAt t f I₂
  sorted : ∀ v ∈ pre ++ (f, k) :: z :: post, ∃ J, LeafAt t v.1 J ∧ Rising Prod.fst J

/-- The last item of the leaf is gone, but its key is still the label of the leaf: the upper half
is linked before it. -/
theorem leafSplitInsert_swaps (hg : ∀ n, env.granted n = true) (h : Standing s L xs above)
    (hfit : above.length + 2 < 2 ^ 8) (hz : LeafFor s L xs q pre z post A (I₁ ++ I₂ ++ [(q, old)]) B)
    (habove : above ≠ []) (hhalf : I₁.length = (I₁ ++ I₂).length / 2) (hne : I₂ ≠ [])
    (htouch : Touches [z.1] s s') (hleaf : LeafAt s' z.1 (I₁ ++ I₂)) (value : List UInt8) :
    (s'.addRef z.1 1).btreeLeafSplitInsert env z.1 q value = none ∨ ∃ t k above',
      (s'.addRef z.1 1).btreeLeafSplitInsert env z.1 q value =
        t.leafSplitPut env z.1 s'.fresh q value ∧
      SwappedAt t pre s'.fresh k z post above' I₁ I₂ ∧ k < q ∧
      t.refs = ((s'.addRef z.1 1).addRef s'.fresh 1).refs ∧ t.config = s.config := by
  have hready := htouch.ready h.ready
  obtain ⟨t, hsplit, ht⟩ := splitLeaf_spec env.uninit hready hleaf hhalf (by simp [hne])
  have halloc : (s'.addRef z.1 1).btnodeAlloc env 1 =
      (some s'.fresh, ((s'.addRef z.1 1).allocated env.uninit 1).addRef s'.fresh 1) :=
    btnodeAlloc_granted env ⟨hg _, hg _⟩ (hready.addRef hleaf.resident.heap).blank 1
  obtain ⟨m, hm⟩ : ∃ m, I₂.getLast? = some m := ⟨_, List.getLast?_eq_some_getLast hne⟩
  obtain ⟨hmq, hzq, hpre, hpost⟩ :=
    hz.labels h (List.mem_append_right I₁ (List.mem_of_getLast? hm))
  have hlabels := h.upper.rising
  rw [hz.locates.split] at hlabels
  have hother : ∀ v ∈ xs, v.2 ≠ m.1 := by
    rw [hz.locates.split]
    refine forall_mem_middle (fun v hv => ?_) (hzq ▸ hmq.ne')
    rcases List.mem_append.mp hv with hv | hv
    · exact (hpre v hv).ne
    · exact (hmq.trans (hpost v hv)).ne'
  have hrise : Rising Prod.snd (pre ++ (s'.fresh, m.1) :: z :: post) := by
    obtain ⟨hpre', htail, hcross⟩ := List.pairwise_append.mp hlabels
    refine List.pairwise_append.mpr ⟨hpre', List.pairwise_cons.mpr ⟨fun v hv => ?_, htail⟩, ?_⟩
    · rcases List.mem_cons.mp hv with rfl | hv
      · exact hzq.symm ▸ hmq
      · exact hmq.trans (hpost v hv)
    · intro v hv a ha
      rcases List.mem_cons.mp ha with rfl | ha
      · exact hpre v hv
      · exact hcross v hv a ha
  obtain ⟨hs, -, -⟩ := List.pairwise_append.mp hz.rising
  obtain ⟨hs₁, hs₂, -⟩ := List.pairwise_append.mp hs
  have hleaves : ∀ v ∈ xs, ∃ J, LeafAt t v.1 J ∧ Rising Prod.fst J := fun v hv => by
    by_cases hvz : v.1 = z.1
    · exact ⟨I₁, hvz ▸ ht.left, hs₁⟩
    · obtain ⟨J, hJ, hJs⟩ := h.leaves.sorted h.rising v hv
      exact ⟨J, ht.others v.1 J hvz (htouch.leafAt (by simpa using hvz) hJ), hJs⟩
  have hindex : Index True t 1 xs above := by
    have hi := htouch.index (fun y hy => ⟨_, (List.mem_singleton.mp hy) ▸ hz.leaf.leafIn⟩) h.index
    exact hi.mono ht.root fun y l cs _ hc => ht.twigs True y l cs hc
  have hrooted : ∀ v ∈ xs, Rooted t 1 v.1 := fun v hv => by
    obtain ⟨J, hJ, -⟩ := hleaves v hv
    exact ⟨J, hJ⟩
  -- The update of the separators finds none.
  obtain ⟨page, hp, hpl, -⟩ := ht.left.page_items
  obtain ⟨t₁, hupdate, hre, hi₁, -⟩ := btreeTwigsUpdate_spec env hindex h.upper.rising le_rfl hrooted
    (by omega) ht.ready.refs hp hpl
    (.inr hother : t.lastKey z.1 = some m.1 ∨ ∀ v ∈ xs, v.2 ≠ m.1)
  have hself : above.map (List.map (rename m.1 m.1)) = above :=
    (List.map_congr_left fun ys _ => map_rename_self m.1).trans (List.map_id _)
  rw [map_rename_self, hself, hz.locates.split] at hi₁
  have hup : Upper t₁ 1 (pre ++ z :: post) above := by
    refine ⟨hi₁, hlabels, fun v hv => ?_, fun hnil => absurd hnil habove, ?_⟩
    · exact hre.rooted le_rfl (hrooted v (hz.locates.split ▸ hv))
    · rw [hre.super, ht.height, htouch.height, h.height]
  have hright : LeafAt t₁ s'.fresh I₂ := hre.sameBelow.leafAt le_rfl ht.right
  have hone : ∀ v ∈ pre ++ z :: post, ∀ w ∈ pre ++ z :: post, v.1 = w.1 → v = w := by
    have hunder : Under s L [] xs := h.leaves
    exact hz.locates.split ▸ label_unique hunder.keys
  rw [leafSplitInsert_eq env halloc hsplit (ht.right.leafIn.lastKey hm), hupdate, Option.bind_some]
  obtain ⟨r, hreq, hgr⟩ := hup.index.granted hg (v := z) (by simp) t₁.mallocs
  rcases insertNode_takes env hup hone (ht.ready.retwig hre) ⟨I₂, hright⟩
    (hright.leafIn.lastKey hm) hrise (by omega) (v := z) rfl hreq hgr with
    ⟨-, hnone⟩ | ⟨-, t₂, above₂, hlink, hL, -⟩
  · exact Or.inl (by rw [hnone, Option.bind_none])
  have hkeep : ∀ {v J}, LeafAt t v J → LeafAt t₂ v J := fun hJ =>
    hL.below.leafAt le_rfl (hre.sameBelow.leafAt le_rfl hJ)
  refine Or.inr ⟨t₂, m.1, above₂, ?_, ⟨hL.upper, hL.ready, ?_, hkeep ht.left, hkeep ht.right,
    forall_mem_middle (fun v hv => ?_) ⟨I₂, hkeep ht.right, hs₂⟩⟩, hmq,
    hL.refs.trans (hre.refs.trans ht.refs), ?_⟩
  · rw [hlink, Option.bind_some, if_neg (not_not.mpr rfl)]
  · have := hL.grown
    omega
  · obtain ⟨J, hJ, hJs⟩ := hleaves v (hz.locates.split ▸ hv)
    exact ⟨J, hkeep hJ, hJs⟩
  · exact hL.below.config.trans (hre.config.trans (ht.config.trans htouch.config))

theorem SwappedAt.misses {f : ℕ} {k : K} (h : SwappedAt t pre f k z post above I₁ I₂)
    (hg : ∀ n, env.granted n = true) (hpre : ∀ v ∈ pre, v.2 < q) (hk : k < q) (hzq : z.2 = q)
    (hitems : ∀ x ∈ I₁ ++ I₂, x.1 < q) (hne : I₂ ≠ []) (hs₂ : Rising Prod.fst I₂) (hzf : z.1 ≠ f)
    (hr : 0 ≤ s.refs) (hrefs : t.refs = ((s.addRef z.1 1).addRef f 1).refs)
    (hlarge : t.super.itemNeeded value.length ≤ t.super.nodeSpace) {run : Option (ℤ × Btree K D)}
    (hrun : run = (t.leafSplitPut env z.1 f q value).bind fun r =>
      (r.2.btnodeRelease env z.1).bind fun s₁ => some ((if r.1 ≠ 0 then 2 else 0 : ℤ), s₁)) :
    run = none ∨ ∃ rc t', run = some (rc, t') ∧ ∃ x place' t'',
      t'.btreeLookupLevel env q 1 noPlace = some (x, place', t'') ∧ place'.found = false := by
  obtain ⟨u, hu⟩ : ∃ u, I₂.head? = some u := Option.isSome_iff_exists.mp (by simpa using hne)
  have hupper : ∀ x ∈ I₂, x.1 < q := fun x hx => hitems x (List.mem_append_right I₁ hx)
  rcases put_last env h.upper h.ready h.levels (fun _ => ⟨hg _, hg _⟩) h.right hu
    (if_neg (hupper u (List.mem_of_head? hu)).not_gt) h.right hs₂ hne hupper hr hrefs hlarge with
    ⟨-, hnone⟩ | ⟨-, t₁, hsome, hput⟩
  · exact Or.inl (by rw [hrun, hnone, Option.bind_none])
  obtain ⟨-, hrefs₁⟩ := btnodeRelease_counted env hput.leaf.resident (addRef_nonneg hr z.1)
    (hput.refs.trans hrefs)
  have hleft : LeafAt (t₁.addRef f (-1)) z.1 I₁ := (hput.others z.1 I₁ hzf h.left).frame rfl rfl
  obtain ⟨hrelease, hrefs₂⟩ := btnodeRelease_counted env hleft.resident hr hrefs₁
  have hr₂ : 0 ≤ ((t₁.addRef f (-1)).addRef z.1 (-1)).refs := hrefs₂.symm ▸ hr
  refine Or.inr ⟨0, (t₁.addRef f (-1)).addRef z.1 (-1), ?_, ?_⟩
  · rw [hrun, hsome, Option.bind_some, hrelease]
    rfl
  have hindex : Index True ((t₁.addRef f (-1)).addRef z.1 (-1)) 1 _ above :=
    hput.index.mono rfl fun v l cs _ hc => hc.frame rfl rfl
  have hloc : Locates (pre ++ (f, k) :: z :: post) q (pre ++ [(f, k)]) z post := by
    refine ⟨by simp, fun v hv => ?_, Or.inl hzq.ge⟩
    rcases List.mem_append.mp hv with hv | hv
    · exact hpre v hv
    · rwa [List.mem_singleton.mp hv]
  refine hindex.search_fails env h.upper.rising (hput.sorted h.sorted hs₂ hupper _) h.levels hr₂ hloc
    (hleft.frame rfl rfl) (fun hmem => ?_) noPlace
  obtain ⟨x, hx, hxq⟩ := List.mem_map.mp hmem
  exact (hitems x (List.mem_append_left I₂ hx)).ne hxq

theorem split_stale (hg : ∀ n, env.granted n = true) (h : Standing s L xs above)
    (hfit : above.length + 2 < 2 ^ 8) (hz : LeafFor s L xs q pre z post A (I₁ ++ I₂ ++ [(q, old)]) B)
    (habove : above ≠ []) (hhalf : I₁.length = (I₁ ++ I₂).length / 2) (hne : I₂ ≠ [])
    (htouch : Touches [z.1] s s') (hleaf : LeafAt s' z.1 (I₁ ++ I₂))
    (hlarge : s.super.itemNeeded value.length ≤ s.super.nodeSpace) {run : Option (ℤ × Btree K D)}
    (hrun : run = ((s'.addRef z.1 1).btreeLeafSplitInsert env z.1 q value).bind fun r =>
      (r.2.btnodeRelease env z.1).bind fun s₁ => some ((if r.1 ≠ 0 then 2 else 0 : ℤ), s₁)) :
    run = none ∨ ∃ rc t, run = some (rc, t) ∧ ∃ x place' t',
      t.btreeLookupLevel env q 1 noPlace = some (x, place', t') ∧ place'.found = false := by
  have hready := htouch.ready h.ready
  rcases leafSplitInsert_swaps env hg h hfit hz habove hhalf hne htouch hleaf value with
    hnone | ⟨t, k, above', hsome, hswap, hk, hrefs, hconfig⟩
  · exact Or.inl (by rw [hrun, hnone, Option.bind_none])
  have hgeometry : t.super.toGeometry = s.super.toGeometry := congrArg Config.geometry hconfig
  have hmem : I₂.getLast hne ∈ I₁ ++ I₂ := List.mem_append_right I₁ (List.getLast_mem hne)
  obtain ⟨-, hzq, -, -⟩ := hz.labels h hmem
  obtain ⟨hs, -, -⟩ := List.pairwise_append.mp hz.rising
  rw [hsome] at hrun
  exact hswap.misses env hg hz.locates.before hk hzq
    (fun x hx => hz.around.1 x (List.mem_append_right A hx)) hne (List.pairwise_append.mp hs).2.1
    (hready.blank.ne_fresh hleaf.resident.heap) hready.refs hrefs (hgeometry ▸ hlarge) hrun

/-! ## All branches -/

theorem not_replaces_of_missing {rc : ℤ} {y : Option ℕ}
    (hrun : s.btreeInsert env q value place = some (rc, t))
    (hlook : t.btreeLookupLevel env q 1 noPlace = some (y, place', t')) (hfound : place'.found = false)
    (hv : value ≠ []) : ¬ Replaces env s L q value place := by
  rintro ⟨s', hrun', hcopies⟩
  obtain ⟨-, rfl⟩ := Prod.mk.inj (Option.some.inj (hrun.symm.trans hrun'))
  have hnothing : ∀ r, t.btreeLookup env q value.length = some r → r.1 = [] := fun r hr => by
    cases y with
    | none =>
        simp only [btreeLookup, hlook, Option.bind_eq_bind, Option.bind_some, Option.pure_def,
          Option.some.injEq] at hr
        rw [← hr]
    | some y =>
        simp only [btreeLookup, hlook, hfound, Option.bind_eq_bind, Option.bind_some, Option.pure_def,
          Bool.not_false, if_true] at hr
        obtain ⟨s₁, -, hr⟩ := Option.bind_eq_some_iff.mp hr
        rw [← Option.some.inj hr]
  have hvalue := hnothing _ (hcopies q value.length)
  rw [if_pos rfl, List.take_length] at hvalue
  exact hv hvalue

theorem Standing.replaces (h : Standing s' L' xs above) (hperm : L'.Perm ((q, value) :: I))
    (hI : Rising Prod.fst I) (hsame : ∀ k, k ≠ q → L.lookup k = I.lookup k)
    (hrun : s.btreeInsert env q value place = some (0, s')) : Replaces env s L q value place := by
  refine ⟨s', hrun, fun k size => ?_⟩
  rw [h.lookup env k size]
  by_cases hk : k = q
  · rw [if_pos hk, hk, lookup_of_mem h.rising (hperm.mem_iff.mpr List.mem_cons_self), Option.getD_some]
  · rw [if_neg hk, hsame k hk]
    by_cases hmem : k ∈ I.map Prod.fst
    · obtain ⟨⟨k, v⟩, hv, rfl⟩ := List.mem_map.mp hmem
      rw [lookup_of_mem hI hv,
        lookup_of_mem h.rising (hperm.mem_iff.mpr (List.mem_cons_of_mem _ hv))]
    · have hno : k ∉ L'.map Prod.fst := by
        rw [(hperm.map Prod.fst).mem_iff]
        simpa [hk] using hmem
      rw [lookup_of_notMem hmem, lookup_of_notMem hno]

omit [LinearOrder K] in
theorem LeafAt.fits_old (h : LeafAt s x (C ++ c :: C')) : s.super.toGeometry.Fits (C ++ C') c.2 := by
  obtain ⟨crc, leaf, -, hpacked⟩ := h.page
  have hroom : s.super.bodyStart (C ++ c :: C').length + LeafPage.bodies (C ++ c :: C') ≤
      s.super.blockSize := hpacked.room
  have hlen : (C ++ c :: C').length = (C ++ C').length + 1 := by simp [Nat.add_assoc]
  rw [hlen, LeafPage.bodyStart_succ, Geometry.bodyStart, Geometry.itemSize, LeafPage.bodies_append,
    LeafPage.bodies_cons] at hroom
  rw [Geometry.Fits, Geometry.sum_itemNeeded, LeafPage.bodies_append, Geometry.itemNeeded,
    Geometry.nodeSpace, Geometry.itemSize]
  omega

omit [LinearOrder K] in
theorem LeafAt.fits_without (h : LeafAt s x (C ++ c :: C')) (hc : s.super.toGeometry.Created)
    {page : Page K} (hp : s.page x = some page)
    (hlarge : s.super.itemNeeded value.length ≤ s.super.nodeSpace) :
    (page.free + s.super.itemNeeded c.2.length) % 2 ^ 32 ≥
      s.super.itemNeeded value.length % 2 ^ 32 ↔ s.super.toGeometry.Fits (C ++ C') value := by
  obtain ⟨crc, leaf, hpleaf, hpacked⟩ := h.page
  obtain rfl := Option.some.inj (hpleaf.symm.trans hp)
  have hb := hc.blockSize
  have hfree : leaf.free + s.super.bodyStart (C ++ c :: C').length +
      LeafPage.bodies (C ++ c :: C') = s.super.blockSize := hpacked.free
  have hlen : (C ++ c :: C').length = (C ++ C').length + 1 := by simp [Nat.add_assoc]
  rw [hlen, LeafPage.bodyStart_succ, Geometry.bodyStart, Geometry.itemSize, LeafPage.bodies_append,
    LeafPage.bodies_cons] at hfree
  rw [Geometry.itemNeeded, Geometry.nodeSpace] at hlarge
  rw [Geometry.Fits, Geometry.sum_itemNeeded, LeafPage.bodies_append, Geometry.itemNeeded,
    Geometry.itemNeeded, Geometry.nodeSpace, Geometry.itemSize]
  change (leaf.free + _) % _ ≥ _ ↔ _
  rw [Nat.mod_eq_of_lt (by omega), Nat.mod_eq_of_lt (by omega)]
  omega

/-- The old item is taken out and the leaf is split, where labels stay true. -/
theorem split_replaces_iff (hg : ∀ n, env.granted n = true) (h : Standing s L xs above)
    (hfit : above.length + 2 < 2 ^ 8) (hz : LeafFor s L xs q pre z post A (C ++ (q, old) :: C') B)
    (htouch : Touches [z.1] s s') (hleaf : LeafAt s' z.1 (C ++ C')) (hne : C ++ C' ≠ [])
    (hlast : C' ≠ [] ∨ above = []) (hvalue : value ≠ [])
    (hlarge : s.super.itemNeeded value.length ≤ s.super.nodeSpace)
    (hrun : s.btreeInsert env q value place =
      ((s'.addRef z.1 1).btreeLeafSplitInsert env z.1 q value).bind fun r =>
        (r.2.btnodeRelease env z.1).bind fun s₁ => some ((if r.1 ≠ 0 then 2 else 0 : ℤ), s₁)) :
    Replaces env s L q value place ↔
      Takes s 1 above (post.headD z).1 ∧ s.super.Splits (C ++ C') q value := by
  obtain ⟨w, hw, hstand⟩ := h.remove hz htouch hleaf hne hlast
  have hgeometry : s'.super.toGeometry = s.super.toGeometry :=
    congrArg Config.geometry htouch.config
  have htakes : Takes s' 1 above (post.headD (z.1, w.1)).1 ↔ Takes s 1 above (post.headD z).1 := by
    have hname : (post.headD (z.1, w.1)).1 = (post.headD z).1 := by cases post <;> rfl
    rw [hname]
    exact htouch.takes_iff (fun y hy => ⟨_, (List.mem_singleton.mp hy) ▸ hz.leaf.leafIn⟩) h.index
  obtain ⟨hbefore, hbehind⟩ := hz.around
  have hk : C' ≠ [] → q < w.1 := fun hC' => by
    have hw' := hw
    rw [List.getLast?_append_of_ne_nil _ hC'] at hw'
    exact hbehind w (List.mem_append_left B (List.mem_of_getLast? hw'))
  have hloc : Locates (pre ++ (z.1, w.1) :: post) q pre (z.1, w.1) post := by
    refine ⟨rfl, hz.locates.before, hlast.imp (fun hC' => (hk hC').le) ?_⟩
    rintro rfl
    exact (hz.locates.split ▸ h.index).alone.2.1
  obtain ⟨A', B', hfor⟩ := leafFor_of_locates hstand.leaves hstand.rising hloc hleaf
  obtain ⟨hz₁, hhalf, hne₂⟩ := hfor.halves
  have hsame : ∀ k, k ≠ q → L.lookup k = (A ++ (C ++ C') ++ B).lookup k := fun k hk => by
    rw [hz.items]
    exact lookup_remove hk
  rw [← hgeometry, ← htakes]
  rw [← hgeometry] at hlarge
  by_cases hC' : C' = []
  · obtain rfl := hlast.resolve_left (not_not.mpr hC')
    obtain ⟨-, rfl, -⟩ := (hz.locates.split ▸ h.index).alone
    have hB : B = [] := Grouped.eq_nil hz.right
    have hall : ∀ x ∈ A ++ (C ++ C') ++ B, x.1 < q := fun x hx => hbefore x (by simpa [hC', hB] using hx)
    rcases split_behind env hg hstand hfit hz₁ hhalf hne₂ hall hlarge hrun with
      ⟨hyes, t, hsome, hcopies⟩ | ⟨hno, hnone⟩
    · refine iff_of_true ⟨t, hsome, fun k size => ?_⟩ hyes
      rw [hcopies k size]
      by_cases hkq : k = q
      · rw [if_pos hkq, if_pos hkq]
      · rw [if_neg hkq, if_neg hkq, hsame k hkq]
    · exact iff_of_false (not_replaces_of_none env hnone) hno
  · obtain ⟨r, hreq, hgr⟩ := hstand.index.granted hg hz₁.next_mem (s'.mallocs + 2)
    rcases split_cases env ⟨hg _, hg _⟩ hstand hreq hgr (fun _ _ _ => ⟨hg _, hg _⟩) hfit hz₁ hhalf
      hne₂ hz.remaining (hk hC') hlarge hrun with
      ⟨hyes, t, L', xs', above', hsome, -, hperm, hstand'⟩ |
      ⟨hpart, t, hsome, ⟨y, p, t', hsearch, hmissing⟩, -⟩ | ⟨⟨hno, -⟩, hnone⟩
    · exact iff_of_true (hstand'.replaces env hperm hstand.rising hsame hsome) hyes
    · refine iff_of_false (not_replaces_of_missing env hsome hsearch hmissing hvalue) ?_
      exact fun hyes => hpart.2.not_take hyes.2
    · exact iff_of_false (not_replaces_of_none env hnone) hno

/-- All branches of an insertion of a key that the tree has. -/
theorem replace_iff (hg : ∀ n, env.granted n = true) (h : Standing s L xs above)
    (hfit : above.length + 2 < 2 ^ 8) (hz : LeafFor s L xs q pre z post A (C ++ (q, old) :: C') B)
    (hsize : old.length ≠ value.length)
    (hlarge : s.super.itemNeeded value.length ≤ s.super.nodeSpace) :
    Replaces env s L q value place ↔ ¬ s.super.Fits (C ++ C') value ∧
      s.super.HeadsMove (C ++ (q, old) :: C').length C.length ∧ (C' ≠ [] ∨ above = []) ∧
      Takes s 1 above (post.headD z).1 ∧ s.super.Splits (C ++ C') q value := by
  obtain ⟨r, hroot⟩ := h.index.root
  obtain ⟨pre', z', post', A', I', B', place', hz', hindex, hfound, -, hplace, hlook⟩ :=
    h.search env q place
  obtain ⟨rfl, rfl, rfl⟩ := hz.locates.unique hz'.locates
  obtain rfl := hz.leaf.unique hz'.leaf
  have hmem : (q, old) ∈ C ++ (q, old) :: C' := by simp
  rw [hz.hit] at hindex
  rw [decide_eq_true (List.mem_map_of_mem (f := Prod.fst) hmem)] at hfound
  obtain ⟨page, hp, -, hcount⟩ := hz.leaf.page_items
  have hlt : place'.index < page.items := by
    rw [hindex, hcount, List.length_append, List.length_cons]
    omega
  have hrun := insert_hit env value hroot hlook hfound hp hlt (hplace old hmem ▸ hsize)
  rw [hplace old hmem, hindex] at hrun
  have hiff := hz.leaf.fits_without h.ready.created hp hlarge
  by_cases hfits : s.super.Fits (C ++ C') value
  · rw [if_pos (hiff.mpr hfits)] at hrun
    exact iff_of_false (replace_in_place env h hz hsize hrun) fun hno => hno.1 hfits
  rw [if_neg (mt hiff.mp hfits)] at hrun
  rw [and_iff_right hfits]
  by_cases hm : s.super.HeadsMove (C ++ (q, old) :: C').length C.length
  swap
  · rw [leafRemove_stuck hz.leaf hm, Option.bind_none] at hrun
    exact iff_of_false (not_replaces_of_none env hrun) fun hno => hm hno.1
  rw [and_iff_right hm]
  obtain ⟨s₁, hremove, htouch, hleaf⟩ := leafRemove_spec hz.leaf h.ready.created.blockSize hm
  rw [hremove, Option.bind_some] at hrun
  have hne : C ++ C' ≠ [] := fun hnil => by
    rw [hnil, Geometry.Fits] at hfits
    exact hfits (by simpa using hlarge)
  have hvalue : value ≠ [] := by
    rintro rfl
    apply hfits
    have hold := hz.leaf.fits_old
    rw [Geometry.Fits, Geometry.itemNeeded] at hold ⊢
    simp only [List.length_nil] at hold ⊢
    omega
  by_cases hlast : C' ≠ [] ∨ above = []
  swap
  · rw [not_or, not_not] at hlast
    obtain ⟨rfl, habove⟩ := hlast
    rw [List.append_nil] at hleaf hne
    obtain ⟨hhalf, hne₂⟩ := halves_cut hne
    have hcut := List.take_append_drop (C.length / 2) C
    rw [← hcut] at hz hleaf
    refine iff_of_false ?_ fun hno => hno.1.elim (fun hC' => hC' rfl) habove
    rcases split_stale env hg h hfit hz habove hhalf hne₂ htouch hleaf hlarge hrun with
      hnone | ⟨rc, t, hsome, y, p, t', hsearch, hmissing⟩
    · exact not_replaces_of_none env hnone
    · exact not_replaces_of_missing env hsome hsearch hmissing hvalue
  rw [and_iff_right hlast]
  exact split_replaces_iff env hg h hfit hz htouch hleaf hne hlast hvalue hlarge hrun

/-- The new item has no room in place of the old one, which can be taken out, there is a slot for
another leaf, and the halves of the leaf without the old item take the new one. The key is not the
last of the leaf, unless the leaf is the root. -/
def Reinserts (s : Btree K D) (L : List (K × List UInt8)) (q : K) (value : List UInt8) : Prop :=
  ∃ xs above pre z post A C old C' B, Tree True s L xs above ∧
    LeafFor s L xs q pre z post A (C ++ (q, old) :: C') B ∧ ¬ s.super.Fits (C ++ C') value ∧
    s.super.HeadsMove (C ++ (q, old) :: C').length C.length ∧ (C' ≠ [] ∨ above = []) ∧
    Takes s 1 above (post.headD z).1 ∧ s.super.Splits (C ++ C') q value

/-- The value of a key is replaced by one of another size exactly when the old item is taken out,
and the leaf split for the new one, without harm. -/
theorem btreeInsert_replaces_iff (hg : ∀ n, env.granted n = true) (h : WellFormed True s L)
    (hmem : (q, old) ∈ L) (hsize : old.length ≠ value.length)
    (hlarge : s.super.itemNeeded value.length ≤ s.super.nodeSpace) :
    Replaces env s L q value place ↔ Reinserts s L q value := by
  have hstand : ∀ {xs above}, Tree True s L xs above → Standing s L xs above := fun ht =>
    ht.standing h.ready
  constructor
  · intro hreplaces
    rcases h.tree with ⟨-, -, rfl⟩ | ⟨xs, above, ht⟩
    · cases hmem
    obtain ⟨pre, z, post, A, I, B, place', hz, -⟩ := (hstand ht).search env q place
    obtain ⟨C, C', rfl, -⟩ := rank_of_mem hz.rising ((hz.mem_iff old).mp hmem)
    exact ⟨xs, above, pre, z, post, A, C, old, C', B, ht, hz,
      (replace_iff env hg (hstand ht) ht.levels hz hsize hlarge).mp hreplaces⟩
  · rintro ⟨xs, above, pre, z, post, A, C, old', C', B, ht, hz, hcond⟩
    have hmem' : (q, old') ∈ L := (hz.mem_iff old').mpr (by simp)
    obtain rfl : old' = old := congrArg Prod.snd (ht.rising.inj hmem' hmem rfl)
    exact (replace_iff env hg (hstand ht) ht.levels hz hsize hlarge).mpr hcond

theorem btreeInsert_replaces_iff_full :
    Replaces memoryEnv fullLeaf fullItems 0 (List.replicate 10 7) noPlace ↔
      Reinserts fullLeaf fullItems 0 (List.replicate 10 7) :=
  btreeInsert_replaces_iff memoryEnv (fun _ => rfl) fullLeaf_formed
    (List.mem_cons_self : (0, List.replicate 36 0) ∈ fullItems) (by decide) (by decide)

/-- A shorter value is not written, and the item keeps the old size. -/
theorem btreeInsert_keeps_size : WellFormed True fullLeaf fullItems ∧
    (0, List.replicate 36 0) ∈ fullItems ∧
    fullLeaf.super.itemNeeded 10 ≤ fullLeaf.super.nodeSpace ∧
    ¬ Replaces memoryEnv fullLeaf fullItems 0 (List.replicate 10 7) noPlace := by
  refine ⟨fullLeaf_formed, List.mem_cons_self, by decide, fun hreplaces => ?_⟩
  have hloc : Locates [(0, 2)] 0 [] (0, 2) [] := ⟨rfl, by simp, Or.inr rfl⟩
  obtain ⟨A, B, hz⟩ :=
    leafFor_of_locates fullLeaf_tree.leaves fullLeaf_tree.rising hloc fullLeaf_items
  have hstand := fullLeaf_tree.standing fullLeaf_formed.ready
  have hz' : LeafFor fullLeaf fullItems [(0, 2)] 0 [] (0, 2) [] A
      ([] ++ (0, List.replicate 36 0) :: [(2, List.replicate 36 0)]) B := hz
  rw [replace_iff memoryEnv (fun _ => rfl) hstand (by decide) hz' (by decide) (by decide)]
    at hreplaces
  exact hreplaces.1 (by decide)

end Btree

end Carthage
