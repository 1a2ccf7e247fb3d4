import Carthage.BtreeReplace
import Carthage.BtreeRequests

/-!
# Insertions that fail

No step of `btree_insert` takes back that a node was counted, so an insertion that fails after its
first allocation leaves `sb_node_count` raised.
-/

namespace Carthage

theorem foldlM_keeps {α σ : Type} {f : σ → α → Option σ} (I : σ → Prop)
    (hf : ∀ s a s', I s → f s a = some s' → I s') {l : List α} {s s' : σ} (hs : I s)
    (h : l.foldlM f s = some s') : I s' := by
  induction l generalizing s with
  | nil => exact Option.some.inj h ▸ hs
  | cons a l ih =>
      rw [List.foldlM_cons] at h
      obtain ⟨s₁, ha, h⟩ := Option.bind_eq_some_iff.mp h
      exact ih (hf s a s₁ hs ha) h

namespace Btree

variable {K D : Type} {env : BtreeEnv K D} {s s' t : Btree K D} {x left right child index level : ℕ}
  {key : K} {pointer : NodePointer} {value : List UInt8} {o o' : Option ℕ} {ok : Bool}
  {place place' : Place} {rc : ℤ}

/-! ## Steps that count no node -/

section Memory

@[grind →] theorem btnodeRelease_super (h : s.btnodeRelease env x = some s') :
    s'.super = s.super := (btnodeRelease_asks h).super

@[grind →] theorem btnodeFree_super (h : s.btnodeFree env x = some s') : s'.super = s.super :=
  (btnodeFree_asks h).super

@[grind →] theorem btreeFetchRoot_super (h : s.btreeFetchRoot env = some (o, s')) :
    s'.super = s.super := (btreeFetchRoot_asks h).super

theorem btnodeAlloc_super (h : s.btnodeAlloc env level = (o, s')) :
    s'.super = if o = none then s.super
      else { s.super with nodeCount := add64 s.super.nodeCount 1 } := by
  by_cases hfirst : env.granted s.mallocs = true
  · by_cases hsecond : env.granted (s.mallocs + 1) = true
    · simp only [btnodeAlloc, btnodeLevelAlloc, malloc, hfirst, hsecond, if_true] at h
      obtain ⟨rfl, rfl⟩ := Prod.mk.inj h
      rfl
    · simp only [btnodeAlloc, btnodeLevelAlloc, malloc, hfirst, hsecond, if_true,
        Bool.false_eq_true, if_false] at h
      obtain ⟨rfl, rfl⟩ := Prod.mk.inj h
      rfl
  · simp only [btnodeAlloc, btnodeLevelAlloc, malloc, hfirst, Bool.false_eq_true, if_false] at h
    obtain ⟨rfl, rfl⟩ := Prod.mk.inj h
    rfl

/-- A 64-bit counter was increased at least `lo` times and at most `hi` times. -/
def Counts (lo hi c c' : ℕ) : Prop :=
  ∃ k, lo ≤ k ∧ k ≤ hi ∧ c' % 2 ^ 64 = (c + k) % 2 ^ 64

theorem Counts.refl (hi c : ℕ) : Counts 0 hi c c := ⟨0, le_rfl, Nat.zero_le hi, rfl⟩

theorem Counts.trans {lo hi lo' hi' c c' c'' : ℕ} (h : Counts lo hi c c')
    (h' : Counts lo' hi' c' c'') : Counts (lo + lo') (hi + hi') c c'' := by
  obtain ⟨k, hlo, hhi, hc⟩ := h
  obtain ⟨k', hlo', hhi', hc'⟩ := h'
  exact ⟨k + k', by omega, by omega, by omega⟩

theorem Counts.mono {lo hi lo' hi' c c' : ℕ} (h : Counts lo hi c c') (hlo : lo' ≤ lo)
    (hhi : hi ≤ hi') : Counts lo' hi' c c' := by
  obtain ⟨k, hk, hk', hc⟩ := h
  exact ⟨k, hlo.trans hk, hk'.trans hhi, hc⟩

theorem Counts.ne {hi c c' : ℕ} (h : Counts 1 hi c c') (hhi : hi < 2 ^ 64) : c' ≠ c := by
  obtain ⟨k, hk, hk', hc⟩ := h
  rintro rfl
  omega

theorem btnodeAlloc_nodeCount (h : s.btnodeAlloc env level = (o, s')) :
    o = none ∧ s'.super.nodeCount = s.super.nodeCount ∨
      o ≠ none ∧ Counts 1 1 s.super.nodeCount s'.super.nodeCount := by
  rw [btnodeAlloc_super h]
  split_ifs with ho
  · exact Or.inl ⟨ho, rfl⟩
  · refine Or.inr ⟨ho, 1, le_rfl, le_rfl, ?_⟩
    dsimp only
    unfold add64
    split_ifs <;> omega

end Memory

section Nodes

theorem twigReplace_super (h : s.twigReplace x index key pointer = some s') :
    s'.super = s.super := by
  simp only [twigReplace, Option.bind_eq_bind, Option.bind_eq_some_iff] at h
  obtain ⟨node, -, page, -, twig, -, h⟩ := h
  split_ifs at h
  exact Option.some.inj h ▸ rfl

theorem twigInsert_super (h : s.twigInsert x index key pointer = some s') :
    s'.super = s.super := by
  simp only [twigInsert, Option.bind_eq_bind, Option.bind_eq_some_iff] at h
  obtain ⟨node, -, page, -, twig, -, pointers, -, h⟩ := h
  split_ifs at h
  exact Option.some.inj h ▸ rfl

theorem twigRemove_super (h : s.twigRemove x index = some s') : s'.super = s.super := by
  simp only [twigRemove, Option.bind_eq_bind, Option.bind_eq_some_iff] at h
  obtain ⟨node, -, page, -, twig, -, pointers, -, h⟩ := h
  split_ifs at h
  · exact Option.some.inj h ▸ rfl
  · exact Option.some.inj h ▸ rfl

theorem twigSplit_super (h : s.twigSplit left right = some s') : s'.super = s.super := by
  simp only [twigSplit, Option.bind_eq_bind, Option.bind_eq_some_iff] at h
  obtain ⟨lnode, -, lpage, -, ltwig, -, lpointers, -, rnode, -, rpage, -, rpointers, -, h⟩ := h
  split_ifs at h
  exact Option.some.inj h ▸ rfl

theorem setPointer_super (h : s.setPointer x index o = some s') : s'.super = s.super := by
  simp only [setPointer, Option.bind_eq_bind, Option.bind_eq_some_iff] at h
  obtain ⟨node, -, pointers, -, h⟩ := h
  split_ifs at h
  exact Option.some.inj h ▸ rfl

theorem twigInsertChild_super (h : s.twigInsertChild x index key child = some s') :
    s'.super = s.super := by
  obtain ⟨s₁, hinsert, h⟩ := Option.bind_eq_some_iff.mp h
  exact (setPointer_super h).trans (twigInsert_super hinsert)

theorem twigMerge_super (h : s.twigMerge left right = some s') : s'.super = s.super := by
  simp only [twigMerge, Option.bind_eq_bind, Option.bind_eq_some_iff] at h
  obtain ⟨rpage, -, rtwig, -, lpage, -, s₁, hfold, rnode, -, h⟩ := h
  have hsuper : s₁.super = s.super := foldlM_keeps (fun t => t.super = s.super)
    (fun t e t' ht hinsert => (twigInsert_super hinsert).trans ht) rfl hfold
  exact Option.some.inj h ▸ hsuper

theorem leafSplit_super (h : s.leafSplit left right = some s') : s'.super = s.super := by
  simp only [leafSplit, Option.bind_eq_bind, Option.bind_eq_some_iff] at h
  obtain ⟨lnode, -, lpage, -, lleaf, -, rnode, -, rpage, -, rleaf, -, halves, -, h⟩ := h
  exact Option.some.inj h ▸ rfl

theorem leafInsert_nodeCount (h : s.leafInsert x index key value = some s') :
    s'.super.nodeCount = s.super.nodeCount := by
  simp only [leafInsert, Option.bind_eq_bind, Option.bind_eq_some_iff] at h
  obtain ⟨node, -, page, -, leaf, -, leaf', -, h⟩ := h
  exact Option.some.inj h ▸ rfl

theorem leafMerge_nodeCount (h : s.leafMerge left right = some s') :
    s'.super.nodeCount = s.super.nodeCount := by
  simp only [leafMerge, Option.bind_eq_bind, Option.bind_eq_some_iff] at h
  obtain ⟨rpage, -, rleaf, -, lpage, -, s₁, hfold, rnode, -, h⟩ := h
  have hcount : s₁.super.nodeCount = s.super.nodeCount :=
    foldlM_keeps (fun t => t.super.nodeCount = s.super.nodeCount)
      (fun t e t' ht hinsert => (leafInsert_nodeCount hinsert).trans ht) rfl hfold
  exact Option.some.inj h ▸ hcount

theorem btreeGrow_nodeCount (h : s.btreeGrow env = some (o, s')) :
    Counts 0 1 s.super.nodeCount s'.super.nodeCount := by
  obtain ⟨⟨twig, s₁⟩, halloc⟩ : ∃ r, s.btnodeAlloc env s.super.height = r := ⟨_, rfl⟩
  have hcount := btnodeAlloc_nodeCount halloc
  unfold btreeGrow at h
  simp only [halloc] at h
  cases twig with
  | none =>
      obtain ⟨-, rfl⟩ := Prod.mk.inj (Option.some.inj h)
      obtain ⟨-, hsame⟩ := hcount.resolve_right fun hno => hno.1 rfl
      exact hsame ▸ Counts.refl 1 _
  | some x =>
      obtain ⟨-, hone⟩ := hcount.resolve_left fun hno => Option.some_ne_none x hno.1
      have hgrown := hone.mono (Nat.zero_le 1) le_rfl
      dsimp only at h
      split_ifs at h
      · simp only [Option.bind_eq_bind, Option.bind_eq_some_iff] at h
        obtain ⟨⟨root, s₂⟩, hfetch, r, -, key, -, s₃, hinsert, s₄, hpointer, h⟩ := h
        obtain ⟨s₅, hrelease, h⟩ := h
        obtain ⟨-, rfl⟩ := Prod.mk.inj (Option.some.inj h)
        have hsuper : s₅.super = s₁.super := by
          rw [btnodeRelease_super hrelease, setPointer_super hpointer, twigInsert_super hinsert,
            btreeFetchRoot_super hfetch]
        change Counts 0 1 s.super.nodeCount s₅.super.nodeCount
        rw [hsuper]
        exact hgrown
      · obtain ⟨-, rfl⟩ := Prod.mk.inj (Option.some.inj h)
        exact hgrown

end Nodes

section Levels

variable [LinearOrder K]

theorem btreeLookupLevel_super
    (h : s.btreeLookupLevel env key level place = some (o, place', s')) : s'.super = s.super :=
  (btreeLookupLevel_asks h).super

theorem twigsUpdateLoop_super {n : ℕ} {old : K} {new : Option K}
    (h : twigsUpdateLoop env old new n level s = some s') : s'.super = s.super := by
  induction n generalizing level s with
  | zero => cases h
  | succ n ih =>
      obtain ⟨⟨node, place, s₁⟩, hlook, h⟩ := Option.bind_eq_some_iff.mp h
      have hsuper₁ := btreeLookupLevel_super hlook
      cases node with
      | none => exact Option.some.inj h ▸ hsuper₁
      | some x =>
          obtain ⟨s₂, hflag, h⟩ := Option.bind_eq_some_iff.mp h
          have hsuper₂ : s₂.super = s₁.super := by
            obtain ⟨node, -, hflag⟩ := Option.bind_eq_some_iff.mp hflag
            exact Option.some.inj hflag ▸ rfl
          dsimp only at h
          split_ifs at h
          · simp only [Option.bind_eq_bind, Option.bind_eq_some_iff] at h
            obtain ⟨page, -, twig, -, entry, -, key, -, s₃, hreplace, s₄, hrelease, h⟩ := h
            rw [ih h, btnodeRelease_super hrelease, twigReplace_super hreplace, hsuper₂, hsuper₁]
          · rw [Option.bind_eq_bind, Option.bind_some] at h
            obtain ⟨s₃, hrelease, h⟩ := Option.bind_eq_some_iff.mp h
            rw [ih h, btnodeRelease_super hrelease, hsuper₂, hsuper₁]

theorem btreeTwigsUpdate_super {old : K} {new : Option K}
    (h : s.btreeTwigsUpdate env x old new = some s') : s'.super = s.super := by
  obtain ⟨page, -, h⟩ := Option.bind_eq_some_iff.mp h
  exact twigsUpdateLoop_super h

theorem btreeTwigsInsertUpdate_super
    (h : s.btreeTwigsInsertUpdate env x index key = some s') : s'.super = s.super := by
  obtain ⟨last, -, h⟩ := Option.bind_eq_some_iff.mp h
  obtain ⟨page, -, h⟩ := Option.bind_eq_some_iff.mp h
  split_ifs at h
  · exact btreeTwigsUpdate_super h
  · exact btreeTwigsUpdate_super h

/-! ## Insertion -/

/-- Linking a node takes back no count, whether it fails or not. -/
theorem btreeInsertNode_nodeCount {n : ℕ} (h : btreeInsertNode env n s x = some (rc, s')) :
    Counts 0 n s.super.nodeCount s'.super.nodeCount := by
  induction n generalizing s s' x rc with
  | zero => cases h
  | succ n ih =>
      obtain ⟨key, -, h⟩ := Option.bind_eq_some_iff.mp h
      obtain ⟨page, -, h⟩ := Option.bind_eq_some_iff.mp h
      obtain ⟨⟨found, place, s₁⟩, hlook, h⟩ := Option.bind_eq_some_iff.mp h
      have hsuper₁ := btreeLookupLevel_super hlook
      rw [← hsuper₁]
      cases found with
      | none =>
          obtain ⟨⟨grown, s₂⟩, hgrow, h⟩ := Option.bind_eq_some_iff.mp h
          have hle : Counts 0 (n + 1) s₁.super.nodeCount s₂.super.nodeCount :=
            (btreeGrow_nodeCount hgrow).mono le_rfl (Nat.succ_pos n)
          cases grown with
          | none =>
              obtain ⟨-, rfl⟩ := Prod.mk.inj (Option.some.inj h)
              exact hle
          | some twig =>
              simp only [Option.bind_eq_bind, Option.bind_eq_some_iff] at h
              obtain ⟨index, -, s₃, hinsert, s₄, hrelease, h⟩ := h
              obtain ⟨-, rfl⟩ := Prod.mk.inj (Option.some.inj h)
              rw [btnodeRelease_super hrelease, twigInsertChild_super hinsert]
              exact hle
      | some twig =>
          obtain ⟨tpage, -, h⟩ := Option.bind_eq_some_iff.mp h
          dsimp only at h
          split_ifs at h with hroom hinside
          · simp only [Option.bind_eq_bind, Option.bind_eq_some_iff] at h
            obtain ⟨index, -, s₂, hupdate, s₃, hinsert, s₄, hrelease, h⟩ := h
            obtain ⟨-, rfl⟩ := Prod.mk.inj (Option.some.inj h)
            rw [btnodeRelease_super hrelease, twigInsertChild_super hinsert,
              btreeTwigsInsertUpdate_super hupdate]
            exact Counts.refl _ _
          · obtain ⟨⟨right, s₂⟩, halloc⟩ : ∃ r, s₁.btnodeAlloc env tpage.level = r := ⟨_, rfl⟩
            have hcount := btnodeAlloc_nodeCount halloc
            rw [halloc] at h
            cases right with
            | none =>
                obtain ⟨s₃, hrelease, h⟩ := Option.bind_eq_some_iff.mp h
                obtain ⟨-, rfl⟩ := Prod.mk.inj (Option.some.inj h)
                obtain ⟨-, hsame⟩ := hcount.resolve_right fun hno => hno.1 rfl
                rw [btnodeRelease_super hrelease, hsame]
                exact Counts.refl _ _
            | some right =>
                obtain ⟨-, hone⟩ := hcount.resolve_left fun hno => Option.some_ne_none right hno.1
                simp only [Option.bind_eq_bind, Option.bind_eq_some_iff] at h
                obtain ⟨s₃, hsplit, last, -, s₄, hupdate, first, -, index, -, s₅, hinsupdate, s₆,
                  hinsert, ⟨rc', s₇⟩, hnode, h⟩ := h
                have hle := ih hnode
                rw [twigInsertChild_super hinsert, btreeTwigsInsertUpdate_super hinsupdate,
                  btreeTwigsUpdate_super hupdate, twigSplit_super hsplit] at hle
                have hgrown : Counts 0 (n + 1) s₁.super.nodeCount s₇.super.nodeCount :=
                  (hone.trans hle).mono (Nat.zero_le _) (Nat.add_comm 1 n).le
                rcases eq_or_ne rc' 0 with hrc | hrc
                · simp only [hrc, ne_eq, not_true, if_false, Option.bind_eq_some_iff] at h
                  obtain ⟨s₈, hrelease, s₉, hrelease', h⟩ := h
                  obtain ⟨-, rfl⟩ := Prod.mk.inj (Option.some.inj h)
                  rw [btnodeRelease_super hrelease', btnodeRelease_super hrelease]
                  exact hgrown
                · simp only [if_pos hrc, Option.bind_eq_some_iff] at h
                  obtain ⟨s₈, hremove, s₉, hmerge, t, hrelease, t', hfree, h⟩ := h
                  obtain ⟨-, rfl⟩ := Prod.mk.inj (Option.some.inj h)
                  rw [btnodeFree_super hfree, btnodeRelease_super hrelease, twigMerge_super hmerge,
                    twigRemove_super hremove]
                  exact hgrown
          · obtain ⟨⟨right, s₂⟩, halloc⟩ : ∃ r, s₁.btnodeAlloc env tpage.level = r := ⟨_, rfl⟩
            have hcount := btnodeAlloc_nodeCount halloc
            rw [halloc] at h
            cases right with
            | none =>
                obtain ⟨s₃, hrelease, h⟩ := Option.bind_eq_some_iff.mp h
                obtain ⟨-, rfl⟩ := Prod.mk.inj (Option.some.inj h)
                obtain ⟨-, hsame⟩ := hcount.resolve_right fun hno => hno.1 rfl
                rw [btnodeRelease_super hrelease, hsame]
                exact Counts.refl _ _
            | some right =>
                obtain ⟨-, hone⟩ := hcount.resolve_left fun hno => Option.some_ne_none right hno.1
                simp only [Option.bind_eq_bind, Option.bind_eq_some_iff] at h
                obtain ⟨s₃, hinsert, ⟨rc', s₄⟩, hnode, h⟩ := h
                have hle := ih hnode
                rw [twigInsertChild_super hinsert] at hle
                have hgrown : Counts 0 (n + 1) s₁.super.nodeCount s₄.super.nodeCount :=
                  (hone.trans hle).mono (Nat.zero_le _) (Nat.add_comm 1 n).le
                rcases eq_or_ne rc' 0 with hrc | hrc
                · simp only [hrc, ne_eq, not_true, if_false, Option.bind_eq_some_iff] at h
                  obtain ⟨s₅, hrelease, s₆, hrelease', h⟩ := h
                  obtain ⟨-, rfl⟩ := Prod.mk.inj (Option.some.inj h)
                  rw [btnodeRelease_super hrelease', btnodeRelease_super hrelease]
                  exact hgrown
                · simp only [if_pos hrc, Option.bind_eq_some_iff] at h
                  obtain ⟨s₅, hrelease, s₆, hfree, h⟩ := h
                  obtain ⟨-, rfl⟩ := Prod.mk.inj (Option.some.inj h)
                  rw [btnodeFree_super hfree, btnodeRelease_super hrelease]
                  exact hgrown

/-- Splitting a leaf fails at once, or counts a node. -/
theorem btreeLeafSplitInsert_cases (h : s.btreeLeafSplitInsert env x key value = some (rc, s')) :
    ∃ o s₁, s.btnodeAlloc env 1 = (o, s₁) ∧
      (o = none ∧ s' = s₁ ∨ o ≠ none ∧
        Counts 1 (2 + 2 * maxLevels) s.super.nodeCount s'.super.nodeCount) := by
  obtain ⟨⟨right, s₁⟩, halloc⟩ : ∃ r, s.btnodeAlloc env 1 = r := ⟨_, rfl⟩
  refine ⟨right, s₁, halloc, ?_⟩
  have hcount := btnodeAlloc_nodeCount halloc
  unfold btreeLeafSplitInsert at h
  rw [halloc] at h
  cases right with
  | none =>
      obtain ⟨-, rfl⟩ := Prod.mk.inj (Option.some.inj h)
      exact Or.inl ⟨rfl, rfl⟩
  | some right =>
      refine Or.inr ⟨Option.some_ne_none right, ?_⟩
      obtain ⟨-, hone⟩ := hcount.resolve_left fun hno => Option.some_ne_none right hno.1
      simp only [Option.bind_eq_bind, Option.bind_eq_some_iff] at h
      obtain ⟨s₂, hsplit, last, -, s₃, hupdate, ⟨rc', s₄⟩, hnode, h⟩ := h
      have hle := btreeInsertNode_nodeCount hnode
      rw [btreeTwigsUpdate_super hupdate, leafSplit_super hsplit] at hle
      have hlinked := hone.trans hle
      have hgrown : Counts 1 (2 + 2 * maxLevels) s.super.nodeCount s₄.super.nodeCount :=
        hlinked.mono le_rfl (by omega)
      rcases ne_or_eq rc' 0 with hrc | hrc
      · simp only [if_pos hrc, Option.bind_eq_some_iff] at h
        obtain ⟨s₅, hmerge, s₆, hfree, h⟩ := h
        obtain ⟨-, rfl⟩ := Prod.mk.inj (Option.some.inj h)
        rw [btnodeFree_super hfree, leafMerge_nodeCount hmerge]
        exact hgrown
      simp only [hrc, ne_eq, not_true, if_false, Option.bind_eq_some_iff] at h
      obtain ⟨first, -, page, -, h⟩ := h
      by_cases hfull : page.free < s₄.super.itemNeeded value.length % 2 ^ 32
      · rw [if_pos hfull] at h
        obtain ⟨⟨target, s₅⟩, halloc'⟩ : ∃ r, s₄.btnodeAlloc env 1 = r := ⟨_, rfl⟩
        have hcount' := btnodeAlloc_nodeCount halloc'
        rw [halloc'] at h
        cases target with
        | none =>
            obtain ⟨s₆, hrelease, h⟩ := Option.bind_eq_some_iff.mp h
            obtain ⟨-, rfl⟩ := Prod.mk.inj (Option.some.inj h)
            obtain ⟨-, hsame⟩ := hcount'.resolve_right fun hno => hno.1 rfl
            rw [btnodeRelease_super hrelease, hsame]
            exact hgrown
        | some target =>
            obtain ⟨-, hone'⟩ := hcount'.resolve_left fun hno => Option.some_ne_none target hno.1
            simp only [Option.bind_eq_some_iff] at h
            obtain ⟨s₆, hinsupdate, s₇, hinsert, ⟨rc'', s₈⟩, hnode', h⟩ := h
            have hle' := btreeInsertNode_nodeCount hnode'
            rw [leafInsert_nodeCount hinsert, btreeTwigsInsertUpdate_super hinsupdate] at hle'
            have hgrown' : Counts 1 (2 + 2 * maxLevels) s.super.nodeCount s₈.super.nodeCount :=
              (hlinked.trans (hone'.trans hle')).mono (by omega) (by omega)
            rcases ne_or_eq rc'' 0 with hrc' | hrc'
            · simp only [if_pos hrc', Option.bind_eq_some_iff] at h
              obtain ⟨s₉, hrelease, t, hfree, h⟩ := h
              obtain ⟨-, rfl⟩ := Prod.mk.inj (Option.some.inj h)
              rw [btnodeFree_super hfree, btnodeRelease_super hrelease]
              exact hgrown'
            · simp only [hrc', not_true, if_false, Option.bind_eq_some_iff] at h
              obtain ⟨s₉, hrelease, h⟩ := h
              obtain ⟨-, rfl⟩ := Prod.mk.inj (Option.some.inj h)
              rw [btnodeRelease_super hrelease]
              exact hgrown'
      · simp only [if_neg hfull, Option.bind_eq_some_iff] at h
        obtain ⟨leaf, -, ⟨found, index⟩, -, s₅, hinsupdate, s₆, hinsert, s₇, hrelease, h⟩ := h
        obtain ⟨-, rfl⟩ := Prod.mk.inj (Option.some.inj h)
        rw [btnodeRelease_super hrelease, leafInsert_nodeCount hinsert,
          btreeTwigsInsertUpdate_super hinsupdate]
        exact hgrown

end Levels

/-! ## Allocations that are refused -/

variable {L : List (K × List UInt8)} {E : Prop}

theorem WellFormed.spent [LinearOrder K] (h : WellFormed E s L) {f : ℕ} (hf : s.fresh ≤ f) (m : ℕ) :
    WellFormed E (s.spent f m) L := by
  refine ⟨h.created, ⟨h.quiet.refs, fun z hz => h.quiet.blank z (hf.trans hz)⟩, ?_⟩
  rcases h.tree with hnone | ⟨xs, above, ht⟩
  · exact Or.inl hnone
  · refine Or.inr ⟨xs, above, ?_, ?_, ht.rising, ht.height, ht.levels⟩
    · exact Grouped.mono ht.leaves fun _ _ _ hl => hl.frame rfl rfl
    · exact ht.index.mono rfl fun _ _ _ _ hc => hc.frame rfl rfl

/-! ## Failures -/

/-- The tree is as it was before the call. -/
structure Undone [LinearOrder K] (E : Prop) (s s' : Btree K D) (L : List (K × List UInt8)) :
    Prop where
  formed : WellFormed E s' L
  items : s'.super.itemCount = s.super.itemCount
  data : s'.super.storedData = s.super.storedData
  nodes : s'.super.nodeCount = s.super.nodeCount

theorem leafRemove_counts (h : s.leafRemove x index = some s') :
    s'.super.nodeCount = s.super.nodeCount ∧ s'.super.itemCount = sub64 s.super.itemCount 1 := by
  simp only [leafRemove, Option.bind_eq_bind, Option.bind_eq_some_iff] at h
  obtain ⟨node, -, page, -, leaf, -, slot, -, leaf', -, h⟩ := h
  exact Option.some.inj h ▸ ⟨rfl, rfl⟩

theorem sub64_one_ne (n : ℕ) : sub64 n 1 ≠ n := by
  unfold sub64
  split_ifs <;> omega

variable [LinearOrder K] {q : K}

theorem insert_split_cases {code : ℤ × Btree K D → ℤ}
    (h : ((s.btreeLeafSplitInsert env x q value).bind fun r =>
      (r.2.btnodeRelease env x).bind fun t => some (code r, t)) = some (rc, s')) :
    ∃ o s₁, s.btnodeAlloc env 1 = (o, s₁) ∧ (o = none ∧ s₁.btnodeRelease env x = some s' ∨
      o ≠ none ∧ s'.super.nodeCount ≠ s.super.nodeCount) := by
  obtain ⟨⟨rc', s₁⟩, hsplit, h⟩ := Option.bind_eq_some_iff.mp h
  obtain ⟨s₂, hrelease, h⟩ := Option.bind_eq_some_iff.mp h
  obtain ⟨-, rfl⟩ := Prod.mk.inj (Option.some.inj h)
  obtain ⟨o, t, halloc, ⟨hnone, rfl⟩ | ⟨hsome, hcount⟩⟩ := btreeLeafSplitInsert_cases hsplit
  · exact ⟨o, s₁, halloc, Or.inl ⟨hnone, hrelease⟩⟩
  · refine ⟨o, t, halloc, Or.inr ⟨hsome, ?_⟩⟩
    rw [btnodeRelease_super hrelease]
    exact hcount.ne (by decide)

theorem insert_append_cases {code : ℤ} (h : (match s.btnodeAlloc env 1 with
      | (none, t) => (t.btnodeRelease env x).bind fun t => some (code, t)
      | (some right, t) => (t.leafInsert right 0 q value).bind fun t =>
          (btreeInsertNode env maxLevels t right).bind fun r =>
            if r.1 ≠ 0 then (r.2.btnodeRelease env x).bind fun t =>
              (t.btnodeFree env right).bind fun t => some (4, t)
            else (r.2.btnodeRelease env right).bind fun t =>
              (t.btnodeRelease env x).bind fun t => some (0, t)) = some (rc, s')) :
    ∃ o s₁, s.btnodeAlloc env 1 = (o, s₁) ∧ (o = none ∧ s₁.btnodeRelease env x = some s' ∨
      o ≠ none ∧ s'.super.nodeCount ≠ s.super.nodeCount) := by
  obtain ⟨⟨right, s₁⟩, halloc⟩ : ∃ r, s.btnodeAlloc env 1 = r := ⟨_, rfl⟩
  refine ⟨right, s₁, halloc, ?_⟩
  have hcount := btnodeAlloc_nodeCount halloc
  rw [halloc] at h
  cases right with
  | none =>
      obtain ⟨s₂, hrelease, h⟩ := Option.bind_eq_some_iff.mp h
      obtain ⟨-, rfl⟩ := Prod.mk.inj (Option.some.inj h)
      exact Or.inl ⟨rfl, hrelease⟩
  | some right =>
      refine Or.inr ⟨Option.some_ne_none right, ?_⟩
      obtain ⟨-, hone⟩ := hcount.resolve_left fun hno => Option.some_ne_none right hno.1
      obtain ⟨s₂, hinsert, h⟩ := Option.bind_eq_some_iff.mp h
      obtain ⟨⟨rc', s₃⟩, hnode, h⟩ := Option.bind_eq_some_iff.mp h
      have hle := btreeInsertNode_nodeCount hnode
      rw [leafInsert_nodeCount hinsert] at hle
      have hgrown : s₃.super.nodeCount ≠ s.super.nodeCount := (hone.trans hle).ne (by decide)
      split_ifs at h
      · obtain ⟨s₄, hrelease, h⟩ := Option.bind_eq_some_iff.mp h
        obtain ⟨s₅, hfree, h⟩ := Option.bind_eq_some_iff.mp h
        obtain ⟨-, rfl⟩ := Prod.mk.inj (Option.some.inj h)
        rw [btnodeFree_super hfree, btnodeRelease_super hrelease]
        exact hgrown
      · obtain ⟨s₄, hrelease, h⟩ := Option.bind_eq_some_iff.mp h
        obtain ⟨s₅, hrelease', h⟩ := Option.bind_eq_some_iff.mp h
        obtain ⟨-, rfl⟩ := Prod.mk.inj (Option.some.inj h)
        rw [btnodeRelease_super hrelease', btnodeRelease_super hrelease]
        exact hgrown

/-- An insertion into a tree that fails removes the item of the key, if it has one, and then either
fails to allocate a node and does nothing else, or counts a node. -/
theorem insert_failed {r : ℕ} (hroot : s.root = some r)
    (hlook : s.btreeLookupLevel env q 1 place = some (some x, place', s.addRef x 1))
    (hrun : s.btreeInsert env q value place = some (rc, s')) (hrc : rc ≠ 0) :
    ∃ s₁ o s₂, (if place'.found then (s.addRef x 1).leafRemove x place'.index
        else some (s.addRef x 1)) = some s₁ ∧ s₁.btnodeAlloc env 1 = (o, s₂) ∧
      (o = none ∧ s₂.btnodeRelease env x = some s' ∨
        o ≠ none ∧ s'.super.nodeCount ≠ s₁.super.nodeCount) := by
  unfold btreeInsert at hrun
  rw [hroot] at hrun
  simp only [hlook, Option.bind_eq_bind, Option.bind_some] at hrun
  obtain ⟨page, -, hrun⟩ := Option.bind_eq_some_iff.mp hrun
  have hzero : ∀ o : Option (Btree K D), (o.bind fun t => some ((0 : ℤ), t)) ≠ some (rc, s') := by
    intro o h
    obtain ⟨t, -, h⟩ := Option.bind_eq_some_iff.mp h
    exact hrc (Prod.mk.inj (Option.some.inj h)).1.symm
  by_cases hsize : place'.size = value.length
  · rw [if_pos hsize] at hrun
    obtain ⟨s₁, -, hrun⟩ := Option.bind_eq_some_iff.mp hrun
    exact absurd hrun (hzero _)
  rw [if_neg hsize] at hrun
  cases hfound : place'.found with
  | false =>
      simp only [hfound, Bool.false_eq_true, if_false] at hrun ⊢
      split_ifs at hrun with hroom hinside
      · obtain ⟨s₁, -, hrun⟩ := Option.bind_eq_some_iff.mp hrun
        obtain ⟨s₂, -, hrun⟩ := Option.bind_eq_some_iff.mp hrun
        exact absurd hrun (hzero _)
      · obtain ⟨o, s₂, hend⟩ := insert_split_cases hrun
        exact ⟨_, o, s₂, rfl, hend⟩
      · obtain ⟨o, s₂, hend⟩ := insert_append_cases hrun
        exact ⟨_, o, s₂, rfl, hend⟩
  | true =>
      simp only [hfound, if_true] at hrun ⊢
      split_ifs at hrun with hroom hinside
      · obtain ⟨s₁, -, hrun⟩ := Option.bind_eq_some_iff.mp hrun
        exact absurd hrun (hzero _)
      · obtain ⟨s₁, hremove, hrun⟩ := Option.bind_eq_some_iff.mp hrun
        obtain ⟨o, s₂, hend⟩ := insert_split_cases hrun
        exact ⟨s₁, o, s₂, hremove, hend⟩
      · obtain ⟨s₁, hremove, hrun⟩ := Option.bind_eq_some_iff.mp hrun
        obtain ⟨o, s₂, hend⟩ := insert_append_cases hrun
        exact ⟨s₁, o, s₂, hremove, hend⟩

theorem insert_failed_first (h : WellFormed E s L) (hroot : s.root = none)
    (hheight : s.super.height = 1) (hrun : s.btreeInsert env q value place = some (rc, s'))
    (hrc : rc ≠ 0) : Undone E s s' L ∧
      ¬ (env.granted s.mallocs = true ∧ env.granted (s.mallocs + 1) = true) := by
  unfold btreeInsert at hrun
  rw [hroot] at hrun
  obtain ⟨⟨node, s₁⟩, hgrow, hrun⟩ := Option.bind_eq_some_iff.mp hrun
  cases node with
  | some node =>
      obtain ⟨s₂, -, hrun⟩ := Option.bind_eq_some_iff.mp hrun
      obtain ⟨s₃, -, hrun⟩ := Option.bind_eq_some_iff.mp hrun
      exact absurd (Prod.mk.inj (Option.some.inj hrun)).1.symm hrc
  | none =>
      obtain ⟨-, rfl⟩ := Prod.mk.inj (Option.some.inj hrun)
      have hlevel : ¬ s.super.height > 1 := by omega
      unfold btreeGrow at hgrow
      by_cases hg : NodeGranted env s.mallocs
      · simp only [btnodeAlloc_granted env hg h.ready.blank, if_neg hlevel, Option.bind_eq_bind,
          Option.bind_some] at hgrow
        cases hgrow
      · obtain ⟨f, m, hf, halloc⟩ := btnodeAlloc_refused env hg h.ready.blank s.super.height
        simp only [halloc] at hgrow
        obtain ⟨-, rfl⟩ := Prod.mk.inj (Option.some.inj hgrow)
        exact ⟨⟨h.spent hf m, rfl, rfl, rfl⟩, hg⟩

theorem insert_failed_new (h : WellFormed E s L) (hx : ResidentAt s x)
    (halloc : (s.addRef x 1).btnodeAlloc env 1 = (o, s'))
    (hend : o = none ∧ s'.btnodeRelease env x = some t ∨
      o ≠ none ∧ t.super.nodeCount ≠ s.super.nodeCount) :
    Undone E s t L ↔
      ¬ (env.granted s.mallocs = true ∧ env.granted (s.mallocs + 1) = true) := by
  have hready := h.ready.addRef hx.heap
  by_cases hg : NodeGranted env s.mallocs
  · have heq := halloc.symm.trans (btnodeAlloc_granted env (s := s.addRef x 1) hg hready.blank 1)
    obtain ⟨rfl, -⟩ := Prod.mk.inj heq
    obtain ⟨hnone, -⟩ | ⟨-, hne⟩ := hend
    · cases hnone
    · exact iff_of_false (fun hundone => hne hundone.nodes) (not_not.mpr hg)
  · obtain ⟨f, m, hf, heq⟩ := btnodeAlloc_refused env (s := s.addRef x 1) hg hready.blank 1
    rw [halloc] at heq
    obtain ⟨rfl, rfl⟩ := Prod.mk.inj heq
    obtain ⟨-, hrelease⟩ | ⟨hsome, -⟩ := hend
    · have hx' : ResidentAt (s.spent f m) x := hx.frame rfl rfl
      have hback := btnodeRelease_added env hx' h.ready.refs
      obtain rfl := Option.some.inj (hback.symm.trans hrelease)
      exact iff_of_true ⟨h.spent hf m, rfl, rfl, rfl⟩ hg
    · exact absurd rfl hsome

/-- An insertion that fails leaves the tree as it was exactly when the key is new and the first
node that the call asks for is refused. -/
theorem btreeInsert_undone_iff (h : WellFormed E s L)
    (hrun : s.btreeInsert env q value place = some (rc, s')) (hrc : rc ≠ 0) :
    Undone E s s' L ↔ q ∉ L.map Prod.fst ∧
      ¬ (env.granted s.mallocs = true ∧ env.granted (s.mallocs + 1) = true) := by
  rcases h.tree with ⟨hnone, hheight, rfl⟩ | ⟨xs, above, ht⟩
  · obtain ⟨hundone, hno⟩ := insert_failed_first h hnone hheight hrun hrc
    exact iff_of_true hundone ⟨List.not_mem_nil, hno⟩
  have hlevels := ht.levels
  obtain ⟨pre, z, post, A, I, B, place', hz, -, hfound, -, -, hlook⟩ :=
    ht.leaves.search env ht.index ht.rising (by omega) h.ready.refs q place
  obtain ⟨r, hroot⟩ := ht.index.root
  obtain ⟨s₁, o, s₂, hfirst, halloc, hend⟩ := insert_failed hroot hlook hrun hrc
  by_cases hq : q ∈ L.map Prod.fst
  · rw [decide_eq_true (hz.key_mem_iff.mp hq)] at hfound
    rw [if_pos hfound] at hfirst
    refine iff_of_false (fun hundone => ?_) fun hnew => hnew.1 hq
    obtain ⟨hnodes, hitems⟩ := leafRemove_counts hfirst
    obtain ⟨rfl, hrelease⟩ | ⟨-, hne⟩ := hend
    · refine sub64_one_ne s.super.itemCount ?_
      calc sub64 s.super.itemCount 1 = s₁.super.itemCount := hitems.symm
        _ = s₂.super.itemCount := by rw [btnodeAlloc_super halloc, if_pos rfl]
        _ = s'.super.itemCount :=
          (congrArg SuperBlock.itemCount (btnodeRelease_super hrelease)).symm
        _ = s.super.itemCount := hundone.items
    · exact hne (hundone.nodes.trans hnodes.symm)
  · rw [decide_eq_false (mt hz.key_mem_iff.mpr hq)] at hfound
    rw [hfound, if_neg Bool.false_ne_true] at hfirst
    obtain rfl := Option.some.inj hfirst
    rw [and_iff_right hq]
    exact insert_failed_new h hz.leaf.resident halloc hend

/-- Two requests are granted: a new leaf, but no new root. -/
def scarceEnv : BtreeEnv ℕ Unit := { memoryEnv with granted := fun n => decide (n < 2) }

theorem scarce_insert : ∃ s',
    fullLeaf.btreeInsert scarceEnv 3 (List.replicate 10 7) noPlace = some (4, s') := by
  have hcode : (fullLeaf.btreeInsert scarceEnv 3 (List.replicate 10 7) noPlace).map Prod.fst =
      some 4 := rfl
  obtain ⟨⟨rc, s'⟩, hrun, hrc⟩ := Option.map_eq_some_iff.mp hcode
  obtain rfl : rc = 4 := hrc
  exact ⟨s', hrun⟩

/-- The leaf that was freed stays counted, and so does its item. -/
theorem btreeInsert_counts_freed : WellFormed True fullLeaf fullItems ∧ ∃ s',
    fullLeaf.btreeInsert scarceEnv 3 (List.replicate 10 7) noPlace = some (4, s') ∧
      ¬ Undone True fullLeaf s' fullItems := by
  obtain ⟨s', hrun⟩ := scarce_insert
  refine ⟨fullLeaf_formed, s', hrun, fun hundone => ?_⟩
  have hcount : (fullLeaf.btreeInsert scarceEnv 3 (List.replicate 10 7) noPlace).map
      (fun r => r.2.super.nodeCount) = some 2 := rfl
  rw [hrun, Option.map_some, hundone.nodes] at hcount
  exact absurd (Option.some.inj hcount) (by decide)

/-- The new leaf is granted. -/
theorem btreeInsert_undone_iff_scarce : ∃ s',
    fullLeaf.btreeInsert scarceEnv 3 (List.replicate 10 7) noPlace = some (4, s') ∧
      (Undone True fullLeaf s' fullItems ↔ 3 ∉ fullItems.map Prod.fst ∧
        ¬ (scarceEnv.granted 0 = true ∧ scarceEnv.granted 1 = true)) := by
  obtain ⟨s', hrun⟩ := scarce_insert
  exact ⟨s', hrun, btreeInsert_undone_iff fullLeaf_formed hrun (by decide)⟩

end Btree

end Carthage
