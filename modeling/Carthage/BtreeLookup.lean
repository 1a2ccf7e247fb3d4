import Carthage.BtreeStored

/-!
# Looking up a key

The descent of a lookup through nodes that are in memory, in the cache or on disk follows
the search in the tree of blocks, and keeps the tree and the reference counts.
-/

namespace Carthage

namespace Btree

variable {K D : Type} {env : BtreeEnv K D} {v : View K} {s : Btree K D} {level x : ℕ}
  {t : PageTree K}

/-- A tree whose blocks can be read, wherever they are. `sb_height` is one above the root. -/
structure Stored (env : BtreeEnv K D) (v : View K) (s : Btree K D) (level : ℕ)
    (t : PageTree K) : Prop where
  memory : Memory env v s
  formed : t.Formed s.super.fanout level
  narrow : s.super.fanout < 2 ^ 16
  levels : level < 2 ^ 8
  height : s.super.height = (level + 1) % 2 ^ 8
  root : s.root = none ∧ OnDisk env v.store s.disk s.rootPointer t ∨
    ∃ r, s.root = some r ∧ v.under r = some t ∧
      (ResidentAt s r ∨ Readable env v.store s.disk s.rootPointer t.page)

/-- No node read fails: memory is never refused, or the search gets to its node all the same. -/
def Served (env : BtreeEnv K D) (result : Option (Option ℕ × Place × Btree K D)) : Prop :=
  (∀ n, env.granted n = true) ∨ ∃ y place s', result = some (some y, place, s')

variable (env)

/-- The root, with its block. -/
theorem Stored.btreeFetchRoot (h : Stored env v s level t) :
    ∃ ok v' s' r, s.btreeFetchRoot env = some (if ok then some r else none, s') ∧
      ((∀ n, env.granted n = true) → ok = true) ∧ (ok = true → Stored env v' s' level t ∧
        s'.super = s.super ∧ s'.refs = s.refs + Pi.single r 1 ∧ v'.under r = some t ∧
        s'.page r = some t.page) := by
  rw [Btree.btreeFetchRoot]
  rcases h.root with ⟨hroot, hdisk⟩ | ⟨r, hroot, hr, hread⟩
  · have hl : t.children ≠ [] → s.super.height ≠ 1 := fun _ => by
      have hlevels := h.levels
      have hheight := h.height
      have hpos : level ≠ 0 := by
        rintro rfl
        exact h.formed
      omega
    obtain ⟨ok, s₁, hrun, -, hgrant, hdone⟩ :=
      h.memory.btnodeFetch env hdisk h.formed.children_le hl
    refine ⟨ok, v.insert s.fresh t, { s₁ with root := if ok then some s.fresh else none }, s.fresh,
      ?_, hgrant, fun hok => ?_⟩
    · simp only [hroot, hrun, Option.bind_eq_bind, Option.bind_some, Option.pure_def]
    obtain rfl := hok
    obtain ⟨hmem, hsame, hrefs, -, hpage⟩ := hdone rfl
    let s' : Btree K D := { s₁ with root := some s.fresh }
    have hmem' : Memory env (v.insert s.fresh t) s' := by
      refine ⟨fun z u hz => ?_, hmem.cache, hmem.blank⟩
      obtain ⟨node, hnode, hover⟩ := hmem.nodes z u hz
      refine ⟨node, hnode, hover.data, hover.clean, fun hne => ?_⟩
      obtain ⟨pointers, hp, hall⟩ := hover.pointers hne
      refine ⟨pointers, hp, fun i c e hc he => ?_⟩
      have hat := hall i c e hc he
      generalize pointers[i]? = o at hat
      cases hat with
      | absent hd => exact .absent hd
      | present hy hd => exact .present hy hd
    have hself : (v.insert s.fresh t).under s.fresh = some t := Function.update_self _ _ _
    have hsuper : s'.super = s.super := hsame.super
    refine ⟨⟨hmem', ?_, ?_, h.levels, ?_, ?_⟩, hsuper, hrefs, hself, hpage⟩
    · exact hsuper ▸ h.formed
    · exact hsuper ▸ h.narrow
    · exact hsuper ▸ h.height
    · refine Or.inr ⟨s.fresh, rfl, hself, Or.inr ?_⟩
      cases hdisk with
      | intro hread _ =>
          have hdisk' : s'.disk = s.disk := hsame.disk
          rw [Btree.rootPointer, hsuper, hdisk']
          exact hread
  · have hmem := h.memory.addRef env hr 1
    obtain ⟨ok, s', hrun, -, hgrant, hdone⟩ :=
      hmem.btnodeRead env hr (hread.imp (fun hr => hr.frame rfl rfl) id)
    refine ⟨ok, v, s', r, ?_, hgrant, fun hok => ?_⟩
    · simp only [hroot, hrun, Option.bind_eq_bind, Option.bind_some, Option.pure_def]
    obtain ⟨hmem', hsame', hrefs, -, hpage⟩ := hdone hok
    have hsuper : s'.super = s.super := hsame'.super
    refine ⟨⟨hmem', ?_, ?_, h.levels, ?_, ?_⟩, hsuper, hrefs, hr, hpage⟩
    · exact hsuper ▸ h.formed
    · exact hsuper ▸ h.narrow
    · exact hsuper ▸ h.height
    · refine Or.inr ⟨r, hsame'.root.trans hroot, hr, ?_⟩
      have hdisk' : s'.disk = s.disk := hsame'.disk
      refine hread.imp (fun hres => (hsame'.resident r (hres.frame rfl rfl)).2) fun hres => ?_
      rw [Btree.rootPointer, hsuper, hdisk']
      exact hres

theorem Stored.later {v' : View K} {s' : Btree K D} (h : Stored env v s level t)
    (hs : Same s s') (hv : v.Extends v') (hm : Memory env v' s') : Stored env v' s' level t where
  memory := hm
  formed := hs.super ▸ h.formed
  narrow := hs.super ▸ h.narrow
  levels := h.levels
  height := hs.super ▸ h.height
  root := by
    have hpointer : s'.rootPointer = s.rootPointer := by
      unfold Btree.rootPointer
      rw [hs.super]
    rw [hs.root, hs.disk, hv.store, hpointer]
    refine h.root.imp id ?_
    rintro ⟨r, hr, hu, hread⟩
    exact ⟨r, hr, hv.under _ _ hu, hread.imp (fun hres => (hs.resident r hres).2) id⟩

variable [LinearOrder K] {c : PageTree K} {q : K}

/-- What the loop knows at a node: the search goes on from its tree. -/
structure Reached (env : BtreeEnv K D) (v : View K) (s : Btree K D) (x level : ℕ)
    (t : PageTree K) : Prop where
  memory : Memory env v s
  under : v.under x = some t
  page : s.page x = some t.page
  formed : t.Formed s.super.fanout level
  narrow : s.super.fanout < 2 ^ 16

/-- One step of the descent. -/
theorem Reached.step (h : Reached env v s x (level + 2) t) (hl : level + 2 < 2 ^ 8)
    {r : ℕ → ℤ} (hr : 0 ≤ r) (hrefs : s.refs = r + Pi.single x 1) {place : Place} (fuel : ℕ)
    (hgo : Served env (lookupLoop env q 1 (fuel + 1) (some x) place s)) :
    ∃ v' s' y c place', v.Extends v' ∧ Same s s' ∧ Reached env v' s' y (level + 1) c ∧
      s'.refs = r + Pi.single y 1 ∧
      (∀ size, t.find q size (level + 2) = c.find q size (level + 1)) ∧
      lookupLoop env q 1 (fuel + 1) (some x) place s =
        lookupLoop env q 1 fuel (some y) place' s' := by
  obtain ⟨htl, twig, hbody, hlen, hne, hfan, hall⟩ := h.formed
  have htwig : t.page.twig? = some twig := by rw [Page.twig?, hbody]
  have hitems : t.page.items = t.children.length := by rw [Page.items, hbody, ← hlen]
  obtain ⟨found, index, hsearch, hindex, -⟩ := indexSearch_total (twig.entries.map Prod.fst) q
  rw [List.length_map, hlen] at hindex
  have hpos : 0 < t.children.length := List.length_pos_iff.mpr hne
  have hnarrow := h.narrow
  have hlt : (if index ≥ t.children.length then sub32 index 1 else index) <
      t.children.length := by
    split_ifs with hge
    · rw [sub32_eq (by omega) (by omega)]
      omega
    · omega
  obtain ⟨c, hc⟩ : ∃ c, t.children[if index ≥ t.children.length then sub32 index 1 else index]? =
      some c := ⟨_, List.getElem?_eq_getElem hlt⟩
  obtain ⟨ok, v₁, s₁, y, hfetch, hgrant, hdone⟩ :=
    h.memory.btnodeFetchTwig env h.under h.page h.formed hl hc
  let place₁ : Place := ⟨index, if found then 16 else place.size, found⟩
  let place₂ : Place := if index ≥ t.children.length then
    { place₁ with index := sub32 index 1 } else place₁
  have hplace : place₂.index = if index ≥ t.children.length then sub32 index 1 else index := by
    by_cases hge : index ≥ t.children.length
    · simp only [place₂, if_pos hge]
    · simp only [place₂, if_neg hge, place₁]
  have hloop : lookupLoop env q 1 (fuel + 1) (some x) place s =
      (s₁.btnodeRelease env x).bind fun s₂ =>
        lookupLoop env q 1 fuel (if ok then some y else none) place₂ s₂ := by
    have hnode : s.searchNode x q place = some place₁ := by
      have hgt : t.page.level > 1 := by omega
      simp only [searchNode, h.page, Option.bind_eq_bind, Option.bind_some, if_pos hgt, htwig,
        hsearch, Option.pure_def, place₁]
    have hleaf : ¬ t.page.level = 1 := by omega
    rw [lookupLoop]
    simp only [hnode, h.page, hitems, if_neg hleaf, Option.bind_eq_bind, Option.bind_some]
    change (Btree.btnodeFetchTwig env s x place₂.index).bind _ = _
    rw [hplace, hfetch, Option.bind_some]
  have hok : ok = true := by
    rcases hgo with hg | ⟨z, p, s', hres⟩
    · exact hgrant hg
    · rw [hloop] at hres
      by_contra hno
      rw [Bool.not_eq_true] at hno
      subst hno
      obtain ⟨s₂, -, hs₂⟩ := Option.bind_eq_some_iff.mp hres
      cases fuel <;> simp [lookupLoop] at hs₂
  obtain rfl := hok
  obtain ⟨hext, hmem₁, hsame₁, hrefs₁, hy, hpy, hpx⟩ := hdone rfl
  have hcf := hall c (List.mem_of_getElem? hc)
  have hyx : y ≠ x := by
    rintro rfl
    have hlevel := hcf.level
    rw [hpx] at hpy
    rw [← Option.some.inj hpy] at hlevel
    omega
  have hposx : 0 < s₁.refs x := by
    have h0 : 0 ≤ r x := hr x
    simp only [hrefs₁, hrefs, Pi.add_apply, Pi.single_eq_same, Pi.single_eq_of_ne hyx.symm]
    omega
  obtain ⟨s₂, hrelease, hmem₂, hsame₂, hrefs₂, -, hheap₂⟩ :=
    hmem₁.btnodeRelease env (hext.under x t h.under) hpx hposx
  have hsame := hsame₁.trans hsame₂
  refine ⟨v₁, s₂, y, c, place₂, hext, hsame, ⟨hmem₂, hy, ?_, ?_, ?_⟩, ?_, fun size => ?_, ?_⟩
  · rw [← hpy]
    unfold Btree.page
    rw [hheap₂ y hyx]
  · exact hsame.super ▸ hcf
  · exact hsame.super ▸ h.narrow
  · rw [hrefs₂, hrefs₁, hrefs, add_right_comm r, add_assoc, ← Pi.single_add]
    simp
  · rw [PageTree.find]
    simp only [htwig, hsearch, hlen, hc, Option.bind_eq_bind, Option.bind_some]
  · rw [hloop, hrelease, Option.bind_some]
    rfl

theorem Reached.descend (h : Reached env v s x level t) (hl : level < 2 ^ 8)
    {r : ℕ → ℤ} (hr : 0 ≤ r) (hrefs : s.refs = r + Pi.single x 1) {place : Place} {fuel : ℕ}
    (hgo : Served env (lookupLoop env q 1 (fuel + level) (some x) place s)) :
    ∃ v' s' y c place', v.Extends v' ∧ Same s s' ∧ Reached env v' s' y 1 c ∧
      s'.refs = r + Pi.single y 1 ∧ (∀ size, t.find q size level = c.find q size 1) ∧
      lookupLoop env q 1 (fuel + level) (some x) place s =
        lookupLoop env q 1 (fuel + 1) (some y) place' s' := by
  induction level using Nat.strong_induction_on generalizing v s x t place with
  | _ level ih =>
      match level, h with
      | 0, h => exact absurd h.formed id
      | 1, h => exact ⟨v, s, x, t, place, .refl v, .refl s, h, hrefs, fun _ => rfl, rfl⟩
      | level + 2, h =>
          obtain ⟨v₁, s₁, y, c, place₁, hext, hsame, h₁, hrefs₁, hfind, hloop⟩ :=
            h.step env hl hr hrefs (fuel + (level + 1)) hgo
          obtain ⟨v₂, s₂, z, d, place₂, hext', hsame', h₂, hrefs₂, hfind', hloop'⟩ :=
            ih (level + 1) (by omega) h₁ (by omega) hrefs₁ (hloop ▸ hgo)
          refine ⟨v₂, s₂, z, d, place₂, hext.trans hext', hsame.trans hsame', h₂, hrefs₂,
            fun size => (hfind size).trans (hfind' size), ?_⟩
          exact hloop.trans hloop'

/-- A lookup copies what the search in the tree of blocks gives. -/
theorem Stored.btreeLookup (h : Stored env v s level t) (hr : 0 ≤ s.refs)
    (hgo : Served env (s.btreeLookupLevel env q 1 noPlace)) (size : ℕ) :
    ∃ v' s' bytes, t.find q size level = some bytes ∧
      s.btreeLookup env q size = some (bytes, s') ∧ Stored env v' s' level t ∧
      s'.super = s.super ∧ s'.refs = s.refs := by
  obtain ⟨ok, v₁, s₁, root, hroot, hgrant, hdone⟩ := h.btreeFetchRoot env
  have hlook : s.btreeLookupLevel env q 1 noPlace =
      lookupLoop env q 1 maxLevels (if ok then some root else none) noPlace s₁ := by
    simp only [btreeLookupLevel, hroot, Option.bind_eq_bind, Option.bind_some]
  have hok : ok = true := by
    rcases hgo with hg | ⟨y, p, s', hres⟩
    · exact hgrant hg
    · rw [hlook] at hres
      by_contra hno
      rw [Bool.not_eq_true] at hno
      subst hno
      simp [maxLevels, lookupLoop] at hres
  obtain rfl := hok
  obtain ⟨h₁, hsuper₁, hrefs₁, hunder, hpage⟩ := hdone rfl
  have hfuel : maxLevels = maxLevels - level + level := by
    have := h.levels
    have : maxLevels = 2 ^ 8 := rfl
    omega
  have hreach : Reached env v₁ s₁ root level t :=
    ⟨h₁.memory, hunder, hpage, h₁.formed, h₁.narrow⟩
  rw [hlook, if_pos rfl, hfuel] at hgo
  obtain ⟨v₂, s₂, y, c, place, hext, hsame, hleaf, hrefs₂, hfind, hloop⟩ :=
    hreach.descend env h.levels hr hrefs₁ hgo
  obtain ⟨hcl, -, leaf, hbody⟩ := hleaf.formed
  have hcleaf : c.page.leaf? = some leaf := by rw [Page.leaf?, hbody]
  obtain ⟨found, index, hsearch, -, hfound⟩ := indexSearch_total leaf.keys q
  have hposy : 0 < s₂.refs y := by
    have h0 : 0 ≤ s.refs y := hr y
    simp only [hrefs₂, Pi.add_apply, Pi.single_eq_same]
    omega
  obtain ⟨s₃, hrelease, hmem₃, hsame₃, hrefs₃, -⟩ :=
    hleaf.memory.btnodeRelease env hleaf.under hleaf.page hposy
  have hstored : Stored env v₂ s₃ level t := h₁.later env (hsame.trans hsame₃) hext hmem₃
  have hsuper : s₃.super = s.super := (hsame.trans hsame₃).super.trans hsuper₁
  have hrefs : s₃.refs = s.refs := by
    rw [hrefs₃, hrefs₂, add_assoc, ← Pi.single_add]
    simp
  have hnotabove : ¬ c.page.level > 1 := by omega
  have hlevel : ∀ place', s₂.searchNode y q place = some place' →
      s.btreeLookupLevel env q 1 noPlace = some (some y, place', s₂) := fun place' hnode => by
    rw [hlook, if_pos rfl, hfuel, hloop, lookupLoop]
    simp only [hnode, hleaf.page, hcl, if_true, Option.bind_eq_bind, Option.bind_some,
      Option.pure_def]
  cases found with
  | false =>
      have hnode : s₂.searchNode y q place = some ⟨index, place.size, false⟩ := by
        simp only [searchNode, hleaf.page, Option.bind_eq_bind, Option.bind_some,
          if_neg hnotabove, hcleaf, LeafPage.search, hsearch, Bool.false_eq_true, if_false,
          Option.pure_def]
      refine ⟨v₂, s₃, [], ?_, ?_, hstored, hsuper, hrefs⟩
      · rw [hfind, PageTree.find]
        simp only [hcleaf, LeafPage.search, hsearch, Option.bind_eq_bind, Option.bind_some,
          Bool.false_eq_true, if_false, Option.pure_def]
      · simp only [Btree.btreeLookup, hlevel _ hnode, hrelease, Option.bind_eq_bind,
          Option.bind_some, if_true, Option.pure_def, Bool.not_false]
  | true =>
      have hget := hfound rfl
      rw [LeafPage.keys, List.getElem?_map, Option.map_eq_some_iff] at hget
      obtain ⟨slot, hslot, -⟩ := hget
      have hnode : s₂.searchNode y q place = some ⟨index, slot.size, true⟩ := by
        simp only [searchNode, hleaf.page, Option.bind_eq_bind, Option.bind_some,
          if_neg hnotabove, hcleaf, LeafPage.search, hsearch, hslot, if_true, Option.pure_def]
      refine ⟨v₂, s₃, leaf.mem.read slot.offset (min size slot.size), ?_, ?_, hstored, hsuper,
        hrefs⟩
      · rw [hfind, PageTree.find]
        simp only [hcleaf, LeafPage.search, hsearch, hslot, Option.bind_eq_bind, Option.bind_some,
          if_true, Option.pure_def]
      · simp only [Btree.btreeLookup, hlevel _ hnode, hleaf.page, hcleaf, hslot, hrelease,
          Option.bind_eq_bind, Option.bind_some, Option.pure_def, Bool.not_true,
          Bool.false_eq_true, if_false]

/-- A lookup in a sorted tree copies the beginning of the value of a key, whose length it
returns, and copies nothing when no leaf has the key. -/
theorem btreeLookup_copies {L : List (K × List UInt8)} (h : Stored env v s level t)
    (hL : t.Holds level L) (hs : Rising Prod.fst L) (hr : 0 ≤ s.refs) (q : K)
    (hgo : Served env (s.btreeLookupLevel env q 1 noPlace)) (size : ℕ) :
    ∃ bytes s', s.btreeLookup env q size = some (bytes, s') ∧
      (∀ value, (q, value) ∈ L → bytes = value.take size ∧ bytes.length = min size value.length) ∧
      (q ∉ L.map Prod.fst → bytes = []) := by
  obtain ⟨v', s', bytes, hfind, hrun, -, -, -⟩ := h.btreeLookup env hr hgo size
  rw [hL.find h.formed h.narrow hs] at hfind
  obtain rfl := Option.some.inj hfind
  refine ⟨_, s', hrun, fun value hmem => ?_, fun hno => ?_⟩
  · rw [lookup_of_mem hs hmem, Option.getD_some]
    exact ⟨rfl, List.length_take⟩
  · rw [lookup_of_notMem hno, Option.getD_none, List.take_nil]

/-- The root and its only leaf are read from the disk. -/
theorem btreeLookup_copies_read :
    let leaf : Page ℕ := ⟨0, 1, .leaf ⟨[⟨7, 60, 3⟩], 29, fun i => UInt8.ofNat i⟩⟩
    let root : Page ℕ := ⟨0, 2, .twig ⟨[(7, ⟨100, 0, 64⟩)], 28⟩⟩
    let disk : ℕ → Option (Page ℕ) := fun b =>
      if b = 100 then some leaf else if b = 164 then some root else none
    let env : BtreeEnv ℕ Unit :=
      { granted := fun _ => true, uninit := fun _ => 0, write := fun d b _ _ _ => (b, d),
        read := fun _ b _ => (disk b).map .node, erase := fun d _ _ => d,
        crcPointer := fun _ _ => 0, crcBlock := fun _ _ _ => 0 }
    let s : Btree ℕ Unit :=
      { super := ⟨⟨64, 4, 4, 2⟩, 0, 0, 3, 1, 2, 3, 164, 0, 64⟩, superOffset := 0,
        cache := Cache.open 2 true true, disk := (), root := none, heap := fun _ => none,
        refs := 0, fresh := 0, mallocs := 0 }
    ∃ bytes s', s.btreeLookup env 7 2 = some (bytes, s') ∧
      (∀ value, (7, value) ∈ [(7, [60, 61, 62])] →
        bytes = value.take 2 ∧ bytes.length = min 2 value.length) ∧
      (7 ∉ [(7, ([60, 61, 62] : List UInt8))].map Prod.fst → bytes = []) := by
  intro leaf root disk env s
  let t : PageTree ℕ := .node root [.node leaf []]
  have hleaf : OnDisk env disk () ⟨100, 0, 64⟩ (.node leaf []) :=
    .intro ⟨by decide, rfl, rfl, rfl, rfl⟩ fun i c e hc => by simp [PageTree.children] at hc
  have hroot : OnDisk env disk () ⟨164, 0, 64⟩ t := by
    refine .intro ⟨by decide, rfl, rfl, rfl, rfl⟩ fun i c e hc he => ?_
    cases i with
    | zero =>
        obtain rfl := Option.some.inj hc
        obtain rfl := Option.some.inj he
        exact hleaf
    | succ i => simp [t, PageTree.children] at hc
  have hformed : t.Formed 2 2 := by
    refine ⟨rfl, _, rfl, rfl, by simp [t, PageTree.children], by decide, fun c hc => ?_⟩
    obtain rfl := List.mem_singleton.mp hc
    exact ⟨rfl, rfl, _, rfl⟩
  have hcache : s.cache.Sound (Cacheable disk) := by
    refine Or.inr ⟨⟨fun _ => [], by decide, by decide, by decide, fun _ => rfl,
      fun _ => List.nodup_nil, fun _ _ hi => by cases hi⟩, fun i page hp => by cases hp⟩
  have hstored : Stored env ⟨fun _ => none, disk⟩ s 2 t :=
    ⟨⟨fun _ _ hx => (by cases hx), hcache, fun _ _ => ⟨rfl, rfl⟩⟩, hformed, by decide, by decide,
      rfl, Or.inl ⟨rfl, hroot⟩⟩
  have hitems : t.Holds 2 [(7, [60, 61, 62])] := by
    refine ⟨_, rfl, ?_⟩
    exact Grouped.single (w := (7, [60, 61, 62])) ⟨_, rfl, rfl⟩ rfl
  exact btreeLookup_copies env hstored hitems (List.pairwise_singleton _ _) le_rfl 7
    (Or.inl fun _ => rfl) 2

end Btree

end Carthage
