import Carthage.CacheRuns

/-!
# Refused insertions

An insertion that is refused, because the key is there or there is no memory, has already made
room when the cache was full.
-/

namespace Carthage

variable {K V : Type} {args : CacheArgs K V} {c c' c'' : DataCache K V} {key : K} {data : V}
  {rc : ℤ} {a : ℕ} {p : Option ℕ}

namespace DataCache

/-- The lists, the index and the nodes are those of before. -/
structure SameEntries (c c' : DataCache K V) : Prop where
  head : c'.head = c.head
  tail : c'.tail = c.tail
  retained : c'.retained = c.retained
  hashtable : c'.hashtable = c.hashtable
  used : c'.used = c.used
  heap : c'.heap = c.heap

theorem SameEntries.trans (h : SameEntries c c') (h' : SameEntries c' c'') :
    SameEntries c c'' where
  head := h'.head.trans h.head
  tail := h'.tail.trans h.tail
  retained := h'.retained.trans h.retained
  hashtable := h'.hashtable.trans h.hashtable
  used := h'.used.trans h.used
  heap := h'.heap.trans h.heap

end DataCache

open DataCache

theorem cacheInsertNode_refused (h : cacheInsertNode args c key data = some (rc, c'))
    (hrc : rc ≠ 0) : c.SameEntries c' := by
  unfold cacheInsertNode cacheHtInsert at h
  simp only [Option.bind_eq_bind, Option.bind_eq_some_iff] at h
  obtain ⟨⟨node, c₁⟩, ⟨s, hs, q, hload, hinsert⟩, h⟩ := h
  cases q with
  | some b =>
      obtain ⟨rfl, rfl⟩ := Prod.mk.inj (Option.some.inj hinsert)
      obtain ⟨-, rfl⟩ := Prod.mk.inj (Option.some.inj h)
      exact ⟨rfl, rfl, rfl, rfl, rfl, rfl⟩
  | none =>
      unfold cacheNodeAlloc at hinsert
      by_cases hg : args.granted c.requests = true
      · -- The node was inserted, so the result is 0.
        simp only [if_pos hg, Option.bind_eq_some_iff] at hinsert
        obtain ⟨c₂, -, hinsert⟩ := hinsert
        obtain ⟨rfl, rfl⟩ := Prod.mk.inj (Option.some.inj hinsert)
        simp only [Option.bind_eq_some_iff] at h
        obtain ⟨c₃, -, c₄, -, h⟩ := h
        exact absurd (Prod.mk.inj (Option.some.inj h)).1.symm hrc
      · have hload' : ({ c with requests := c.requests + 1 } : DataCache K V).load s = some none := by
          rw [← hload]
          cases s <;> rfl
        simp only [if_neg hg, store_same hload', Option.bind_some] at hinsert
        obtain ⟨rfl, rfl⟩ := Prod.mk.inj (Option.some.inj hinsert)
        obtain ⟨-, rfl⟩ := Prod.mk.inj (Option.some.inj h)
        exact ⟨rfl, rfl, rfl, rfl, rfl, rfl⟩

theorem modify_heap_none {f : CNode K V → CNode K V} {b : ℕ} (h : c.modify b f = some c') :
    c'.heap a = none ↔ c.heap a = none := by
  simp only [DataCache.modify, Option.bind_eq_bind, Option.bind_eq_some_iff] at h
  obtain ⟨n, hn, h⟩ := h
  obtain rfl := Option.some.inj h
  by_cases hab : a = b
  · subst hab
    simp [hn]
  · simp [hab]

theorem cacheVictim_heap_none {b : ℕ} (h : cacheVictim args c = some (b, c')) :
    c'.heap a = none ↔ c.heap a = none := by
  unfold cacheVictim at h
  cases htype : args.type with
  | mru =>
      simp only [htype, Option.bind_eq_bind, Option.bind_eq_some_iff] at h
      obtain ⟨x, -, n, -, head, -, c₁, hmod, h⟩ := h
      obtain ⟨-, rfl⟩ := Prod.mk.inj (Option.some.inj h)
      have hnone := modify_heap_none (a := a) hmod
      exact hnone
  | lru =>
      simp only [htype, Option.bind_eq_bind, Option.bind_eq_some_iff] at h
      obtain ⟨x, -, n, -, tail, -, c₁, hmod, h⟩ := h
      obtain ⟨-, rfl⟩ := Prod.mk.inj (Option.some.inj h)
      have hnone := modify_heap_none (a := a) hmod
      exact hnone

theorem cacheNodeFree_heap (h : cacheNodeFree args c p = some c') (ha : c.heap a = none) :
    c'.heap a = none := by
  unfold cacheNodeFree at h
  cases p with
  | none =>
      split_ifs at h
      obtain rfl := Option.some.inj h
      exact ha
  | some b =>
      simp only [Option.bind_eq_bind, Option.bind_eq_some_iff] at h
      obtain ⟨n, hn, h⟩ := h
      obtain rfl := Option.some.inj h
      by_cases hab : a = b
      · subst hab
        simp
      · simpa [hab] using ha

theorem cacheNodePurge_frees (h : cacheNodePurge args c = some (rc, c')) :
    rc = 0 ∧ ∃ a n, c.heap a = some n ∧ c'.heap a = none := by
  unfold cacheNodePurge cacheHtRemove at h
  simp only [Option.bind_eq_bind, Option.bind_eq_some_iff, Option.bind_some] at h
  obtain ⟨⟨a, c₁⟩, hvictim, ⟨node, c₂⟩, ⟨n, hn, c₃, hfree, hremove⟩, c₄, hfree', h⟩ := h
  obtain ⟨rfl, rfl⟩ := Prod.mk.inj (Option.some.inj hremove)
  obtain ⟨rfl, rfl⟩ := Prod.mk.inj (Option.some.inj h)
  refine ⟨rfl, a, ?_⟩
  have hheap : c.heap a ≠ none := fun hno => by
    have hnone : c₁.heap a = none := (cacheVictim_heap_none hvictim).mpr hno
    rw [hn] at hnone
    cases hnone
  obtain ⟨m, hm⟩ := Option.ne_none_iff_exists'.mp hheap
  have hgone : c₃.heap a = none := by
    have hn' : c₁.heap a = some n := hn
    simp only [cacheNodeFree, hn', Option.bind_eq_bind, Option.bind_some, Option.pure_def,
      Option.some.injEq] at hfree
    rw [← hfree]
    exact Function.update_self _ _ _
  exact ⟨m, hm, cacheNodeFree_heap hfree' hgone⟩

/-- A refused insertion leaves the entries and their order alone exactly when the cache was not
full. -/
theorem cacheInsert_refused (h : cacheInsert args c key data = some (rc, c')) (hrc : rc ≠ 0) :
    c.SameEntries c' ↔ c.used ≠ args.size := by
  unfold cacheInsert at h
  simp only [Option.bind_eq_bind, Option.bind_eq_some_iff] at h
  obtain ⟨⟨rc₁, c₁⟩, hroom, h⟩ := h
  by_cases hfull : c.used = args.size
  · rw [if_pos hfull] at hroom
    obtain ⟨rfl, a, n, hn, hgone⟩ := cacheNodePurge_frees hroom
    have hrefused : c₁.SameEntries c' := cacheInsertNode_refused h hrc
    refine ⟨fun hsame => ?_, fun hne => absurd hfull hne⟩
    rw [← hsame.heap, hrefused.heap, hgone] at hn
    cases hn
  · rw [if_neg hfull] at hroom
    obtain ⟨rfl, rfl⟩ := Prod.mk.inj (Option.some.inj hroom)
    exact ⟨fun _ => hfull, fun _ => cacheInsertNode_refused h hrc⟩

/-- The key is there, and the cache has room. -/
theorem cacheInsert_refused_room : ∃ rs c c',
    runAll (cacheStep (numberCache 3 .lru false)) emptyNumberCache [.insert 1 10, .insert 2 20] =
      some (rs, c) ∧
    cacheInsert (numberCache 3 .lru false) c 2 21 = some (-2, c') ∧
    (c.SameEntries c' ↔ c.used ≠ (numberCache 3 .lru false).size) := by
  refine ⟨_, _, _, rfl, rfl, ?_⟩
  exact @cacheInsert_refused ℕ ℕ (numberCache 3 .lru false) _ _ 2 21 (-2) rfl (by decide)

/-- The key is there, and the cache is full: the oldest entry goes. -/
theorem cacheInsert_refused_full : ∃ rs c c',
    runAll (cacheStep (numberCache 2 .lru false)) emptyNumberCache [.insert 1 10, .insert 2 20] =
      some (rs, c) ∧
    cacheInsert (numberCache 2 .lru false) c 2 21 = some (-2, c') ∧
    (c.heap 0).map CNode.key = some 1 ∧ c'.heap 0 = none ∧ ¬ c.SameEntries c' := by
  refine ⟨_, _, _, rfl, rfl, rfl, rfl, fun hsame => ?_⟩
  have hheap := congrFun hsame.heap 0
  cases hheap

end Carthage
