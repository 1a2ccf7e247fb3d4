import Carthage.BtreeInsertNew

/-!
# Nodes that are not linked

What `__btree_insert_node` leaves when the nodes that it asks for are refused. Behind all
other nodes only memory is spent, so the tree is as it was.
-/

namespace Carthage

namespace Btree

variable {K D : Type} {s s' s'' t : Btree K D} {level l x y f n r : ℕ} {k : K}
  {xs pre post ys U V A B c1 c2 : List (ℕ × K)} {above : List (List (ℕ × K))} {u v z : ℕ × K}

/-- The tree is as it was, although memory was spent. -/
structure Aborted (s s' : Btree K D) : Prop where
  same : ∀ l, SameBelow l s s'
  root : s'.root = s.root
  height : s'.super.height = s.super.height
  refs : s'.refs = s.refs
  ready : Ready s'

theorem SameBelow.resident (h : ∀ l, SameBelow l s s') (hx : ResidentAt s x) :
    ResidentAt s' x := by
  obtain ⟨node, hnode, hdata, hkeeps⟩ := hx
  obtain ⟨page, hpage⟩ := Option.isSome_iff_exists.mp hdata
  have hp : s.page x = some page := by
    simp only [Btree.page, hnode, hpage, Option.bind_eq_bind, Option.bind_some]
  exact ResidentAt.frame ⟨node, hnode, hdata, hkeeps⟩ (h 0).config
    ((h page.level).low x page hp le_rfl)

/-- The node `f` was freed, on which one more reference was held than in `s`. -/
structure Freed (s s' s'' : Btree K D) (f : ℕ) : Prop where
  others : ∀ z, z ≠ f → s''.heap z = s'.heap z
  config : s''.config = s'.config
  root : s''.root = s'.root
  height : s''.super.height = s'.super.height
  refs : s''.refs = s.refs
  ready : Ready s''

theorem btnodeFree_counted (env : BtreeEnv K D) (h : Ready s') (hf : ResidentAt s' f)
    (hr : 0 ≤ s.refs) (hzero : s.refs f = 0) (heq : s'.refs = (s.addRef f 1).refs) :
    ∃ s'', s'.btnodeFree env f = some s'' ∧ Freed s s' s'' f := by
  obtain ⟨hrelease, hrefs⟩ := btnodeRelease_counted env hf hr heq
  have hready := h.release hf.heap (hrefs.symm ▸ hr)
  have hrefs' : ((s'.addRef f (-1)).freeNode f).refs = s.refs := by
    change Function.update (s'.addRef f (-1)).refs f 0 = s.refs
    rw [hrefs, ← hzero, Function.update_eq_self]
  refine ⟨(s'.addRef f (-1)).freeNode f, ?_, fun z hz => Function.update_of_ne hz _ _, rfl, rfl, rfl,
    hrefs', hrefs'.symm ▸ hr, fun z hz => ?_, h.created⟩
  · obtain ⟨node, hnode, hdata, -⟩ := hf
    simp only [btnodeFree, hnode, hdata, hrelease, if_true, Option.bind_eq_bind, Option.bind_some,
      Option.pure_def]
  · obtain ⟨hheap, hcount⟩ := hready.blank z hz
    refine ⟨?_, ?_⟩
    · change Function.update s'.heap f none z = none
      rw [Function.update_apply]
      split_ifs
      · rfl
      · exact hheap
    · rw [hrefs', ← hrefs]
      exact hcount

namespace Aborted

theorem trans (h : Aborted s s') (h' : Aborted s' s'') : Aborted s s'' :=
  ⟨fun l => (h.same l).trans (h'.same l), h'.root.trans h.root, h'.height.trans h.height,
    h'.refs.trans h.refs, h'.ready⟩

theorem spent (hr : Ready s) {f m : ℕ} (hf : s.fresh ≤ f) : Aborted s (s.spent f m) :=
  ⟨fun _ => ⟨rfl, fun _ _ _ _ => rfl⟩, rfl, rfl, rfl,
    ⟨hr.refs, fun z hz => hr.blank z (hf.trans hz), hr.created⟩⟩

/-- The reference to `y` is given back after no node was allocated. -/
theorem refused (env : BtreeEnv K D) (hr : Ready s) (hy : ResidentAt s y)
    (hno : ¬ NodeGranted env s.mallocs) (level : ℕ) :
    ∃ t s', (s.addRef y 1).btnodeAlloc env level = (none, t) ∧ t.btnodeRelease env y = some s' ∧
      Aborted s s' := by
  obtain ⟨f, m, hf, halloc⟩ :=
    btnodeAlloc_refused env (s := s.addRef y 1) hno (hr.addRef hy.heap).blank level
  have hspent : Aborted s (s.spent f m) := spent hr hf
  have hy' : ResidentAt (s.spent f m) y := hy.frame rfl rfl
  exact ⟨_, s.spent f m, halloc, btnodeRelease_added env hy' hr.refs, hspent⟩

/-- The reference to `y` is given back, and the new node is freed. -/
theorem freed (env : BtreeEnv K D) (hr : Ready s) (hy : ResidentAt s y)
    (hsame : ∀ l, SameBelow l s t) (hroot : t.root = s.root)
    (hheight : t.super.height = s.super.height)
    (hrefs : t.refs = ((s.addRef y 1).addRef s.fresh 1).refs) (hf : ResidentAt t s.fresh)
    (h : Aborted t s') : ∃ s₁ s₂, s'.btnodeRelease env y = some s₁ ∧
      s₁.btnodeFree env s.fresh = some s₂ ∧ Aborted s s₂ := by
  have hy' : ResidentAt s' y := SameBelow.resident h.same (SameBelow.resident hsame hy)
  have hswap : s'.refs = ((s.addRef s.fresh 1).addRef y 1).refs := by
    rw [h.refs, hrefs]
    exact add_right_comm _ _ _
  have hr₁ : 0 ≤ (s.addRef s.fresh 1).refs := addRef_nonneg hr.refs s.fresh
  obtain ⟨hrelease, hrefs₁⟩ := btnodeRelease_counted env hy' hr₁ hswap
  have hready := h.ready.release hy'.heap (hrefs₁.symm ▸ hr₁)
  obtain ⟨s₂, hfree, hF⟩ := btnodeFree_counted env (s := s) hready
    ((SameBelow.resident h.same hf).frame rfl rfl) hr.refs (hr.blank _ le_rfl).2 hrefs₁
  refine ⟨_, s₂, hrelease, hfree, fun l => ⟨?_, fun z page hp hl => ?_⟩, ?_, ?_, hF.refs, hF.ready⟩
  · exact hF.config.trans ((h.same l).config.trans (hsame l).config)
  · have hz : z ≠ s.fresh := hr.blank.ne_fresh fun hno => by simp [Btree.page, hno] at hp
    rw [hF.others z hz, ← (hsame l).low z page hp hl,
      ← (h.same l).low z page ((hsame l).page hp hl) hl]
    rfl
  · exact hF.root.trans (h.root.trans hroot)
  · exact hF.height.trans (h.height.trans hheight)

end Aborted

/-! ## Behind all other nodes -/

variable [LinearOrder K] (env : BtreeEnv K D)

omit [LinearOrder K] in
theorem Touches.trans {X Y Z : List ℕ} (h : Touches X s s') (h' : Touches Y s' s'')
    (hX : X ⊆ Z) (hY : Y ⊆ Z) (hZ : ∀ y ∈ Z, s.heap y ≠ none) : Touches Z s s'' := by
  refine ⟨fun y hy => ?_, hZ, h'.config.trans h.config, h'.refs.trans h.refs,
    h'.root.trans h.root, h'.fresh.trans h.fresh, h'.height.trans h.height,
    h'.mallocs.trans h.mallocs⟩
  rw [h'.others y fun hmem => hy (hY hmem), h.others y fun hmem => hy (hX hmem)]

omit [LinearOrder K] in
theorem LeafPage.body_layout {mem : Bytes} {e : ℕ} {I : List (K × List UInt8)}
    (h : LeafPage.Stored mem e I) : List.Forall₂
      (fun (slot : LeafSlot K) x => slot.key = x.1 ∧ mem.read slot.offset slot.size = x.2)
      (LeafPage.layout e I) I := by
  induction I generalizing e with
  | nil => exact List.Forall₂.nil
  | cons x I ih => exact List.Forall₂.cons ⟨rfl, h.1⟩ (ih h.2)

omit [LinearOrder K] in
theorem mergeLoop_leaf {es : List (LeafSlot K)} {body : LeafSlot K → List UInt8} {m j : ℕ}
    {I J : List (K × List UInt8)}
    (hes : List.Forall₂ (fun slot y => slot.key = y.1 ∧ body slot = y.2) es J)
    (hx : LeafAt s x I) (hc : s.super.toGeometry.Created) (hlen : I.length = m + j)
    (hroom : ((I ++ J).map fun y => s.super.itemNeeded y.2.length).sum ≤ s.super.nodeSpace) :
    ∃ s', (es.zipIdx j).foldlM (fun s e => s.leafInsert x (m + e.2) e.1.key (body e.1)) s = some s' ∧
      Touches [x] s s' ∧ LeafAt s' x (I ++ J) := by
  induction hes generalizing s I j with
  | nil =>
      refine ⟨s, rfl, ⟨fun _ _ => rfl, fun y hy => ?_, rfl, rfl, rfl, rfl, rfl, rfl⟩, by simpa using hx⟩
      rw [List.mem_singleton.mp hy]
      exact hx.resident.heap
  | @cons slot y es J hslot hes ih =>
      have hfits : s.super.toGeometry.Fits I y.2 := by
        simp only [List.map_append, List.map_cons, List.sum_append, List.sum_cons] at hroom
        rw [Geometry.Fits]
        omega
      have hspace : ∀ page, s.page x = some page → s.super.itemNeeded y.2.length ≤ page.free :=
        fun page hp => (hx.leafIn.fits_iff hc hp y.2).mpr hfits
      rw [← List.append_nil I] at hx
      obtain ⟨s₁, hins, htouch, hx₁⟩ := leafInsert_spec y.1 hx.leafIn hc.blockSize hspace
      have hgeometry : s₁.super.toGeometry = s.super.toGeometry :=
        congrArg Config.geometry htouch.config
      have hall : I ++ (y.1, y.2) :: [] ++ J = I ++ y :: J := by simp
      obtain ⟨s', hloop, htouch', hx'⟩ := ih hx₁ (hgeometry ▸ hc) (j := j + 1) (by simp [hlen]; omega)
        (by rw [hgeometry, hall]; exact hroom)
      refine ⟨s', ?_, htouch.trans htouch' (List.Subset.refl _) (List.Subset.refl _) htouch.alive,
        hall ▸ hx'⟩
      rw [List.zipIdx_cons, List.foldlM_cons, hslot.1, hslot.2, ← hlen, hins]
      exact hloop

omit [LinearOrder K] in
theorem LeafIn.space {I : List (K × List UInt8)} (h : LeafIn s x I) :
    (I.map fun y => s.super.itemNeeded y.2.length).sum ≤ s.super.nodeSpace := by
  obtain ⟨crc, leaf, -, hpacked⟩ := h.page
  have hroom := hpacked.room
  rw [Geometry.sum_itemNeeded, Geometry.nodeSpace]
  rw [Geometry.bodyStart] at hroom
  omega

omit [LinearOrder K] in
/-- The items of the upper half are put behind those of the lower one. -/
theorem leafMerge_spec {I J : List (K × List UInt8)} (hx : LeafAt s x I) (hf : LeafAt s f J)
    (hne : f ≠ x) (hc : s.super.toGeometry.Created)
    (hroom : ((I ++ J).map fun y => s.super.itemNeeded y.2.length).sum ≤ s.super.nodeSpace) :
    ∃ s', s.leafMerge x f = some s' ∧ Touches [x, f] s s' ∧ LeafAt s' x (I ++ J) ∧
      ResidentAt s' f := by
  obtain ⟨page, hp, -, hitems⟩ := hx.page_items
  obtain ⟨crc, leaf, hpf, hpacked⟩ := hf.page
  have hes := LeafPage.body_layout hpacked.stored
  rw [← hpacked.slots] at hes
  obtain ⟨s₁, hloop, htouch, hx₁⟩ := mergeLoop_leaf hes hx hc (Nat.add_zero _).symm hroom
  have hf₁ : LeafAt s₁ f J := htouch.leafAt (by simpa using hne) hf
  obtain ⟨node, hnode, ⟨b⟩⟩ := hf₁
  let node' : BtNode K := { node with
    data := some ⟨crc, 1, .leaf ⟨[], s₁.super.nodeSpace, leaf.mem⟩⟩ }
  have htouch₂ : Touches [f] s₁ (s₁.setNode f node') :=
    ⟨fun y hy => setNode_heap_ne _ (by simpa using hy) _, fun y hy => by
      rw [List.mem_singleton.mp hy, hnode]
      exact Option.some_ne_none node, rfl, rfl, rfl, rfl, rfl, rfl⟩
  have hall : Touches [x, f] s (s₁.setNode f node') := by
    refine htouch.trans htouch₂ (by simp) (by simp) fun y hy => ?_
    rcases List.mem_cons.mp hy with rfl | hy
    · exact hx.resident.heap
    · rw [List.mem_singleton.mp hy]
      exact hf.resident.heap
  refine ⟨s₁.setNode f node', ?_, hall, htouch₂.leafAt (by simpa using hne.symm) hx₁,
    ⟨node', setNode_heap_self _ _ _, rfl, b.keeps⟩⟩
  have hloop' : leaf.slots.zipIdx.foldlM
      (fun s e => s.leafInsert x (page.items + e.2) e.1.key (leaf.body e.1)) s = some s₁ := by
    rw [hitems]
    exact hloop
  simp only [leafMerge, hpf, hp, Page.leaf?, hloop', hnode, Option.bind_eq_bind, Option.bind_some,
    Option.pure_def]
  rfl

namespace Apart

variable {I₁ I₂ : List (K × List UInt8)}

omit [LinearOrder K] in
theorem aborted (h : Apart s t x I₁ I₂ xs above) (ha : Aborted t s') :
    Apart s s' x I₁ I₂ xs above := by
  have hleaf : ∀ {v J}, LeafAt t v J → LeafAt s' v J := fun hJ => (ha.same 1).leafAt le_rfl hJ
  exact ⟨hleaf h.left, hleaf h.right, fun v J hv hJ => hleaf (h.others v J hv hJ),
    h.index.mono ha.root fun y l cs _ hc => (ha.same l).twigAt le_rfl hc,
    (ha.same 0).config.trans h.config, ha.refs.trans h.refs, ha.height.trans h.height, ha.ready⟩

omit [LinearOrder K] in
theorem merged (h : Apart s t x I₁ I₂ xs above) (hr : Ready s) (hx : LeafAt s x (I₁ ++ I₂)) :
    ∃ t₁ t₂, t.leafMerge x s.fresh = some t₁ ∧ t₁.btnodeFree env s.fresh = some t₂ ∧
      Put (s.addRef x 1) t₂ x (I₁ ++ I₂) xs above := by
  have hne : x ≠ s.fresh := hr.blank.ne_fresh hx.resident.heap
  have hgeometry : t.super.toGeometry = s.super.toGeometry := congrArg Config.geometry h.config
  obtain ⟨t₁, hmerge, htouch, hleaf, hres⟩ :=
    leafMerge_spec h.left h.right hne.symm h.ready.created (hgeometry.symm ▸ hx.leafIn.space)
  have hrefs : t₁.refs = ((s.addRef x 1).addRef s.fresh 1).refs := htouch.refs.trans h.refs
  have hzero : (s.addRef x 1).refs s.fresh = 0 := by
    simp [Btree.addRef, hne.symm, (hr.blank _ le_rfl).2]
  obtain ⟨t₂, hfree, hF⟩ := btnodeFree_counted env (htouch.ready h.ready) hres
    (addRef_nonneg hr.refs x) hzero hrefs
  refine ⟨t₁, t₂, hmerge, hfree, hleaf.frame hF.config (hF.others x hne), ?_, fun v J hv hJ => ?_,
    hF.refs, hF.height.trans (htouch.height.trans h.height),
    hF.config.trans (htouch.config.trans h.config), hF.ready⟩
  · refine h.index.mono (hF.root.trans htouch.root) fun y l cs _ hc => ?_
    have hyx : y ≠ x := by
      rintro rfl
      exact h.left.not_twig hc
    have hyf : y ≠ s.fresh := by
      rintro rfl
      exact h.right.not_twig hc
    refine hc.frame (hF.config.trans htouch.config) ?_
    rw [hF.others y hyf, htouch.others y (by simp [hyx, hyf])]
  · have hvf : v ≠ s.fresh := hr.blank.ne_fresh hJ.resident.heap
    have hJ' : LeafAt t v J := h.others v J hv (hJ.frame rfl rfl)
    refine hJ'.frame (hF.config.trans htouch.config) ?_
    rw [hF.others v hvf, htouch.others v (by simp [hv, hvf])]

end Apart

end Btree

end Carthage
