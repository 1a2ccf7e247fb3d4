import Carthage.BtreeIndex

/-!
# Searching a level

`__btree_lookup_level` on resident nodes: it changes nothing but the reference count of
the node it returns, which is the one that the index over the level locates. A search for
a level above the root ends at a leaf without a result.
-/

namespace Carthage

namespace Btree

variable {K D : Type} {s s' : Btree K D} {E : Prop} {level target x y n : ℕ}
  {xs ys pre post cs U V : List (ℕ × K)} {above : List (List (ℕ × K))} {q : K} {z u : ℕ × K}
  {items : List (K × List UInt8)} {place : Place}

/-- A node of a level with all levels below it, whatever its keys are. -/
def Rooted (s : Btree K D) : ℕ → ℕ → Prop
  | 0, _ => False
  | 1, x => ∃ items, LeafAt s x items
  | level + 2, x => ∃ cs, cs ≠ [] ∧ TwigAt False s x (level + 2) cs ∧ ∀ z ∈ cs, Rooted s (level + 1) z.1

theorem TwigAt.weaken (h : TwigAt E s x level cs) : TwigAt False s x level cs := by
  obtain ⟨node, hx, ⟨t⟩⟩ := h
  exact ⟨node, hx, ⟨{ t with free := False.elim }⟩⟩

theorem Rooted.resident (h : Rooted s level x) : ResidentAt s x := by
  match level, h with
  | 1, ⟨items, hl⟩ => exact hl.resident
  | level + 2, ⟨cs, _, hc, _⟩ => exact hc.resident

theorem Rooted.page (h : Rooted s level x) : ∃ page, s.page x = some page ∧ page.level = level := by
  match level, h with
  | 1, ⟨items, hl⟩ =>
      obtain ⟨page, hp, hpl, -⟩ := hl.page_items
      exact ⟨page, hp, hpl⟩
  | level + 2, ⟨cs, _, hc, _⟩ =>
      obtain ⟨page, hp, hpl, -⟩ := hc.page_items
      exact ⟨page, hp, hpl⟩

theorem Rooted.frame (h : Rooted s level x) (hc : s'.config = s.config)
    (hlow : ∀ z page, s.page z = some page → page.level ≤ level → s'.heap z = s.heap z) :
    Rooted s' level x := by
  induction level using Nat.strong_induction_on generalizing x with
  | _ level ih =>
      match level, h with
      | 1, ⟨items, hl⟩ =>
          obtain ⟨page, hp, hpl, -⟩ := hl.page_items
          exact ⟨items, hl.frame hc (hlow x page hp hpl.le)⟩
      | level + 2, ⟨cs, hne, ht, hall⟩ =>
          obtain ⟨page, hp, hpl, -⟩ := ht.page_items
          refine ⟨cs, hne, ht.frame hc (hlow x page hp hpl.le), fun z hz => ?_⟩
          exact ih (level + 1) (by omega) (hall z hz)
            (fun y page hy hle => hlow y page hy (by omega))

theorem Groups.rooted (h : Groups E s (level + 1) xs ys) (hl : 1 ≤ level)
    (hx : ∀ z ∈ xs, Rooted s level z.1) : ∀ u ∈ ys, Rooted s (level + 1) u.1 := by
  intro u hu
  obtain ⟨cs, w, hc, hw, -, hsub⟩ := h.group hu
  obtain ⟨l, rfl⟩ : ∃ l, level = l + 1 := ⟨level - 1, by omega⟩
  refine ⟨cs, ?_, hc.weaken, fun z hz => hx z (hsub z hz)⟩
  rintro rfl
  simp at hw

theorem Index.rooted (h : Index E s level xs above) (hl : 1 ≤ level)
    (hx : ∀ z ∈ xs, Rooted s level z.1) :
    ∃ r, s.root = some r ∧ Rooted s (level + above.length) r := by
  induction above generalizing level xs with
  | nil =>
      obtain ⟨z, rfl, hroot⟩ := h
      exact ⟨z.1, hroot, hx z (by simp)⟩
  | cons ys above ih =>
      obtain ⟨r, hroot, hr⟩ := ih h.2 (by omega) (h.1.rooted hl hx)
      refine ⟨r, hroot, ?_⟩
      rwa [List.length_cons, Nat.add_comm above.length, ← Nat.add_assoc]

variable [LinearOrder K]

/-! ## One node -/

theorem searchNode_twig (h : TwigAt E s x level cs) (hl : 1 < level) (q : K) (place : Place) :
    ∃ found index, indexSearch (cs.map Prod.snd) q = some (found, index) ∧
      s.searchNode x q place = some ⟨index, if found then 16 else place.size, found⟩ := by
  obtain ⟨crc, twig, hp, hk, -⟩ := h.page
  obtain ⟨found, index, hsearch, -⟩ := indexSearch_total (cs.map Prod.snd) q
  refine ⟨found, index, hsearch, ?_⟩
  simp only [searchNode, hp, Option.bind_eq_bind, Option.bind_some, gt_iff_lt, hl, if_true,
    Page.twig?, hk, hsearch, Option.pure_def]

theorem searchNode_leaf (h : LeafAt s x items) (q : K) (place : Place) :
    ∃ found index size, indexSearch (items.map Prod.fst) q = some (found, index) ∧
      s.searchNode x q place = some ⟨index, size, found⟩ ∧
      (found = false → size = place.size) ∧
      (found = true → ∃ e, items[index]? = some e ∧ e.1 = q ∧ size = e.2.length) := by
  obtain ⟨crc, leaf, hp, hk⟩ := h.page
  obtain ⟨found, index, hsearch, -, hfound⟩ := indexSearch_total (items.map Prod.fst) q
  cases found with
  | false =>
      refine ⟨false, index, place.size, hsearch, ?_, fun _ => rfl, (fun hc => by cases hc)⟩
      simp [searchNode, hp, Page.leaf?, LeafPage.search, hk.keys, hsearch]
  | true =>
      have hget := hfound rfl
      rw [List.getElem?_map, Option.map_eq_some_iff] at hget
      obtain ⟨e, he, rfl⟩ := hget
      have hslot : ∃ slot, leaf.slots[index]? = some slot ∧ slot.size = e.2.length := by
        have hsizes : leaf.slots.map LeafSlot.size = items.map (fun e => e.2.length) := by
          rw [hk.slots]
          exact LeafPage.layout_map_size _
        have hat := congrArg (fun l => l[index]?) hsizes
        simp only [List.getElem?_map, he, Option.map_some, Option.map_eq_some_iff] at hat
        exact hat
      obtain ⟨slot, hslot, hsize⟩ := hslot
      refine ⟨true, index, slot.size, hsearch, ?_, (fun hc => by cases hc),
        fun _ => ⟨e, he, rfl, hsize⟩⟩
      simp [searchNode, hp, Page.leaf?, LeafPage.search, hk.keys, hsearch, hslot]

/-! ## One step -/

variable (env : BtreeEnv K D)

theorem lookupLoop_step (h : TwigAt E s x level cs) (hl : 1 < level) (ht : level ≠ target)
    {found : Bool} {index : ℕ} (hsearch : indexSearch (cs.map Prod.snd) q = some (found, index))
    (hz : cs[if index ≥ cs.length then sub32 index 1 else index]? = some z)
    (hres : ResidentAt s z.1) (hr : 0 ≤ s.refs) (place : Place) :
    ∃ place', (found = false → place'.size = place.size) ∧
      ∀ n, lookupLoop env q target (n + 1) (some x) place (s.addRef x 1) =
        lookupLoop env q target n (some z.1) place' (s.addRef z.1 1) := by
  have h' : TwigAt E (s.addRef x 1) x level cs := h.frame rfl rfl
  obtain ⟨page, hp, hpl, hpi⟩ := h'.page_items
  obtain ⟨found', index', hsearch', hnode⟩ := searchNode_twig h' hl q place
  rw [hsearch] at hsearch'
  obtain ⟨rfl, rfl⟩ := Prod.mk.inj (Option.some.inj hsearch')
  let place₁ : Place := ⟨index, if found then 16 else place.size, found⟩
  let place₂ : Place := if index ≥ cs.length then { place₁ with index := sub32 index 1 } else place₁
  have hindex : place₂.index = if index ≥ cs.length then sub32 index 1 else index := by
    by_cases hge : index ≥ cs.length
    · simp only [place₂, if_pos hge]
    · simp only [place₂, if_neg hge, place₁]
  have hsize : place₂.size = place₁.size := by
    by_cases hge : index ≥ cs.length
    · simp only [place₂, if_pos hge]
    · simp only [place₂, if_neg hge]
  refine ⟨place₂, fun hf => by simp [hsize, place₁, hf], fun n => ?_⟩
  have hfetch : (s.addRef x 1).btnodeFetchTwig env x place₂.index =
      some (some z.1, (s.addRef x 1).addRef z.1 1) :=
    btnodeFetchTwig_resident env h' (by rw [hindex]; exact hz) (hres.frame rfl rfl)
  have hrelease : ((s.addRef x 1).addRef z.1 1).btnodeRelease env x = some (s.addRef z.1 1) := by
    rw [addRef_comm]
    exact btnodeRelease_added env (h.resident.frame rfl rfl) (addRef_nonneg hr z.1)
  have hleaf : ¬ level = 1 := by omega
  rw [lookupLoop]
  simp only [hnode, hp, hpl, hpi, if_neg ht, if_neg hleaf, Option.bind_eq_bind, Option.bind_some]
  change (btnodeFetchTwig env (s.addRef x 1) x place₂.index).bind _ = _
  rw [hfetch, Option.bind_some, hrelease, Option.bind_some]

/-! ## Through the index -/

theorem Index.descend (h : Index E s level xs above) (hs : Rising Prod.snd xs) (hl : 1 ≤ level)
    (ht : ∀ j, level < j → j ≤ level + above.length → target ≠ j)
    (hres : ∀ z ∈ xs, ResidentAt s z.1) (hr : 0 ≤ s.refs) (q : K) (place : Place) :
    ∃ root pre z post place', s.root = some root ∧ ResidentAt s root ∧ Locates xs q pre z post ∧
      ((∀ x ∈ xs, x.2 ≠ q) → place'.size = place.size) ∧
      ∀ n, lookupLoop env q target (n + above.length) (some root) place (s.addRef root 1) =
        lookupLoop env q target n (some z.1) place' (s.addRef z.1 1) := by
  induction above generalizing level xs with
  | nil =>
      obtain ⟨z, rfl, hroot⟩ := h
      exact ⟨z.1, [], z, [], place, hroot, hres z (by simp), ⟨rfl, by simp, Or.inr rfl⟩,
        fun _ => rfl, fun n => rfl⟩
  | cons ys above ih =>
      obtain ⟨hg, hi⟩ := h
      have hup : ∀ u ∈ ys, ResidentAt s u.1 := fun u hu => by
        obtain ⟨cs, w, hc, -⟩ := hg.group hu
        exact hc.resident
      obtain ⟨root, U, u, V, place₁, hroot, hrr, hloc, hsize, hloop⟩ :=
        ih hi (hg.rising hs) (by omega) (fun j h1 h2 => ht j (by omega) (by simp; omega)) hup
      have hu : u ∈ ys := by simp [hloc.split]
      obtain ⟨cs, w, hc, hw, -, hsub⟩ := hg.group hu
      have hcs : Rising Prod.snd cs := by
        obtain ⟨A, c', B, w', -, hc', -, -, -, -, hcs, -⟩ := hg.located hs hloc
        rwa [(hc.unique hc').2]
      obtain ⟨pre, z, post, hlocz, hget⟩ := descend_group hloc hg hs hc
      have hzs : z ∈ xs := by simp [hlocz.split]
      obtain ⟨place', hsize', hstep⟩ := lookupLoop_step env (q := q) hc (by omega)
        (ht (level + 1) (by omega) (by simp)).symm (indexSearch_spec (rising_map.mp hcs))
        hget (hres z hzs) hr place₁
      refine ⟨root, pre, z, post, place', hroot, hrr, hlocz, fun hno => ?_, fun n => ?_⟩
      · rw [hsize', hsize]
        · intro x hx
          obtain ⟨c', w', -, hw', hwx, hsub'⟩ := hg.group hx
          rw [← hwx]
          exact hno w' (hsub' w' (List.mem_of_getLast? hw'))
        · refine decide_eq_false fun hmem => ?_
          obtain ⟨x, hx, hxq⟩ := List.mem_map.mp hmem
          exact hno x (hsub x hx) hxq
      · rw [List.length_cons, ← Nat.add_assoc, Nat.add_right_comm, hloop, hstep]

theorem btreeLookupLevel_eq {root : ℕ} (hroot : s.root = some root) (hres : ResidentAt s root)
    (q : K) (target : ℕ) (place : Place) : s.btreeLookupLevel env q target place =
      lookupLoop env q target maxLevels (some root) place (s.addRef root 1) := by
  simp only [btreeLookupLevel, btreeFetchRoot_resident env hroot hres, Option.bind_eq_bind,
    Option.bind_some]

theorem Index.lookup_twig (h : Index E s level xs (ys :: above)) (hs : Rising Prod.snd xs)
    (hl : 1 ≤ level) (hfit : level + above.length + 1 < 2 ^ 8) (hr : 0 ≤ s.refs) (q : K)
    (place : Place) :
    ∃ U u V cs w place', Locates ys q U u V ∧ TwigAt E s u.1 (level + 1) cs ∧
      cs.getLast? = some w ∧ w.2 = u.2 ∧ Rising Prod.snd cs ∧
      place'.index = rank (cs.map Prod.snd) q ∧ place'.found = decide (q ∈ cs.map Prod.snd) ∧
      s.btreeLookupLevel env q (level + 1) place = some (some u.1, place', s.addRef u.1 1) := by
  obtain ⟨hg, hi⟩ := h
  have hup : ∀ u ∈ ys, ResidentAt s u.1 := fun u hu => by
    obtain ⟨cs, w, hc, -⟩ := hg.group hu
    exact hc.resident
  have hlevel : ∀ j, level + 1 < j → j ≤ level + 1 + above.length → level + 1 ≠ j :=
    fun j h1 _ => by omega
  obtain ⟨root, U, u, V, place₁, hroot, hrr, hloc, -, hloop⟩ :=
    hi.descend env (hg.rising hs) (by omega) hlevel hup hr q place
  have hu : u ∈ ys := by simp [hloc.split]
  obtain ⟨cs, w, hc, hw, hwu, -⟩ := hg.group hu
  have hcs : Rising Prod.snd cs := by
    obtain ⟨A, c', B, w', -, hc', -, -, -, -, hcs, -⟩ := hg.located hs hloc
    rwa [(hc.unique hc').2]
  have hc' : TwigAt E (s.addRef u.1 1) u.1 (level + 1) cs := hc.frame rfl rfl
  obtain ⟨page, hp, hpl, -⟩ := hc'.page_items
  obtain ⟨found, index, hsearch, hnode⟩ := searchNode_twig hc' (by omega) q place₁
  rw [indexSearch_spec (rising_map.mp hcs)] at hsearch
  obtain ⟨rfl, rfl⟩ := Prod.mk.inj (Option.some.inj hsearch)
  let place' : Place := ⟨rank (cs.map Prod.snd) q,
    if decide (q ∈ cs.map Prod.snd) then 16 else place₁.size, decide (q ∈ cs.map Prod.snd)⟩
  refine ⟨U, u, V, cs, w, place', hloc, hc, hw, hwu, hcs, rfl, rfl, ?_⟩
  have hfuel : maxLevels = (maxLevels - 1 - above.length) + 1 + above.length := by
    have : maxLevels = 2 ^ 8 := rfl
    omega
  rw [btreeLookupLevel_eq env hroot hrr, hfuel, hloop, lookupLoop]
  simp only [hnode, hp, hpl, if_true, Option.bind_eq_bind, Option.bind_some, Option.pure_def,
    place']

/-! ## Searching above the root -/

theorem Rooted.lookup_none (h : Rooted s level x) (ht : level < target) (hr : 0 ≤ s.refs)
    (q : K) (place : Place) (hn : level ≤ n) :
    ∃ place', lookupLoop env q target n (some x) place (s.addRef x 1) =
      some (none, place', s) := by
  induction level using Nat.strong_induction_on generalizing x place n with
  | _ level ih =>
      match level, h with
      | 1, ⟨items, hl⟩ =>
          obtain ⟨m, rfl⟩ : ∃ m, n = m + 1 := ⟨n - 1, by omega⟩
          have hl' : LeafAt (s.addRef x 1) x items := hl.frame rfl rfl
          obtain ⟨page, hp, hpl, -⟩ := hl'.page_items
          obtain ⟨found, index, size, -, hnode, -⟩ := searchNode_leaf hl' q place
          have hne : ¬ 1 = target := by omega
          refine ⟨⟨index, size, found⟩, ?_⟩
          rw [lookupLoop]
          simp only [hnode, hp, hpl, if_neg hne, if_true, Option.bind_eq_bind, Option.bind_some,
            btnodeRelease_added env hl.resident hr, Option.pure_def]
      | level + 2, ⟨cs, hne, hc, hall⟩ =>
          obtain ⟨m, rfl⟩ : ∃ m, n = m + 1 := ⟨n - 1, by omega⟩
          obtain ⟨found, index, hsearch, hle, -⟩ := indexSearch_total (cs.map Prod.snd) q
          have hpos : 0 < cs.length := List.length_pos_iff.mpr hne
          have hlt := hc.length_lt
          rw [List.length_map] at hle
          have hidx : (if index ≥ cs.length then sub32 index 1 else index) < cs.length := by
            split_ifs with hge
            · rw [sub32_eq (by omega) (by omega)]
              omega
            · omega
          obtain ⟨z, hz⟩ : ∃ z, cs[if index ≥ cs.length then sub32 index 1 else index]? = some z :=
            ⟨_, List.getElem?_eq_getElem hidx⟩
          have hzc : z ∈ cs := List.mem_of_getElem? hz
          have hne' : level + 2 ≠ target := by omega
          obtain ⟨place', -, hstep⟩ := lookupLoop_step env hc (by omega) hne' hsearch hz
            (hall _ hzc).resident hr place
          rw [hstep]
          exact ih (level + 1) (by omega) (hall _ hzc) (by omega) place' (by omega)

theorem lookup_above {root : ℕ} (hroot : s.root = some root) (h : Rooted s level root)
    (hl : level < 2 ^ 8) (ht : level < target) (hr : 0 ≤ s.refs) (q : K) (place : Place) :
    ∃ place', s.btreeLookupLevel env q target place = some (none, place', s) := by
  rw [btreeLookupLevel_eq env hroot h.resident]
  exact h.lookup_none env ht hr q place (Nat.le_of_lt hl)

end Btree

end Carthage
