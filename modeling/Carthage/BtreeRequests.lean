import Carthage.Btree

/-!
# What a search asks for

Reading and releasing nodes leaves the super-block alone, and memory is only ever asked for:
a search that asked for none followed the pointers in memory.
-/

namespace Carthage

namespace Btree

variable {K D : Type} {env : BtreeEnv K D} {s s' s'' : Btree K D} {x index level : ℕ} {key : K}
  {pointer : NodePointer} {o o' : Option ℕ} {ok : Bool} {place place' : Place}

/-- No node was counted, and memory may have been asked for. -/
structure Asks (s s' : Btree K D) : Prop where
  super : s'.super = s.super
  mallocs : s.mallocs ≤ s'.mallocs

theorem Asks.refl (s : Btree K D) : Asks s s := ⟨rfl, le_rfl⟩

theorem Asks.trans (h : Asks s s') (h' : Asks s' s'') : Asks s s'' :=
  ⟨h'.super.trans h.super, h.mallocs.trans h'.mallocs⟩

theorem btcacheAdd_asks {blocknr : ℕ} {block : Option (Page K)}
    (h : s.btcacheAdd env blocknr block = some s') : Asks s s' := by
  simp only [btcacheAdd, Option.bind_eq_bind] at h
  by_cases hgrow : s.cache.growing = true
  · rw [if_pos hgrow] at h
    by_cases hok : (s.malloc env).1 = true
    · rw [if_pos hok] at h
      obtain ⟨cache, -, h⟩ := Option.bind_eq_some_iff.mp h
      exact Option.some.inj h ▸ ⟨rfl, Nat.le_succ _⟩
    · rw [if_neg hok] at h
      exact Option.some.inj h ▸ ⟨rfl, Nat.le_succ _⟩
  · rw [if_neg hgrow] at h
    obtain ⟨cache, -, h⟩ := Option.bind_eq_some_iff.mp h
    exact Option.some.inj h ▸ ⟨rfl, le_rfl⟩

theorem btnodeRelease_asks (h : s.btnodeRelease env x = some s') : Asks s s' := by
  simp only [btnodeRelease, Option.bind_eq_bind, Option.bind_eq_some_iff] at h
  obtain ⟨node, -, h⟩ := h
  by_cases hrefs : s.refs x ≤ 0
  · rw [if_pos hrefs] at h
    cases h
  rw [if_neg hrefs] at h
  split_ifs at h
  · exact Option.some.inj h ▸ ⟨rfl, le_rfl⟩
  · obtain ⟨s₁, hadd, h⟩ := Option.bind_eq_some_iff.mp h
    obtain ⟨hsuper, hmallocs⟩ := btcacheAdd_asks hadd
    exact Option.some.inj h ▸ ⟨hsuper, hmallocs⟩
  · exact Option.some.inj h ▸ ⟨rfl, le_rfl⟩

theorem btnodeFree_asks (h : s.btnodeFree env x = some s') : Asks s s' := by
  simp only [btnodeFree, Option.bind_eq_bind, Option.bind_eq_some_iff] at h
  obtain ⟨node, -, h⟩ := h
  split_ifs at h
  · obtain ⟨s₁, hrelease, h⟩ := Option.bind_eq_some_iff.mp h
    obtain ⟨hsuper, hmallocs⟩ := btnodeRelease_asks hrelease
    exact Option.some.inj h ▸ ⟨hsuper, hmallocs⟩
  · exact Option.some.inj h ▸ ⟨rfl, le_rfl⟩

theorem btnodeRead_asks (h : s.btnodeRead env x pointer = some (ok, s')) : Asks s s' := by
  simp only [btnodeRead, Option.bind_eq_bind, Option.bind_eq_some_iff] at h
  obtain ⟨node, -, h⟩ := h
  by_cases hdata : node.data.isSome = true
  · rw [if_pos hdata] at h
    exact (Prod.mk.inj (Option.some.inj h)).2 ▸ Asks.refl s
  rw [if_neg hdata] at h
  obtain ⟨⟨block, cache⟩, -, h⟩ := Option.bind_eq_some_iff.mp h
  dsimp only at h
  by_cases hblock : block.isSome = true
  · rw [if_pos hblock] at h
    exact (Prod.mk.inj (Option.some.inj h)).2 ▸ ⟨rfl, le_rfl⟩
  rw [if_neg hblock] at h
  by_cases hok : (!(({ s with cache := cache }.setNode x { node with
      blocknr := pointer.blocknr, size := pointer.size,
      dirty := false, onDisk := false, update := false }).malloc env).1) = true
  · rw [if_pos hok] at h
    exact (Prod.mk.inj (Option.some.inj h)).2 ▸ ⟨rfl, Nat.le_succ _⟩
  rw [if_neg hok] at h
  split at h
  · split_ifs at h
    · exact (Prod.mk.inj (Option.some.inj h)).2 ▸ ⟨rfl, Nat.le_succ _⟩
    · exact (Prod.mk.inj (Option.some.inj h)).2 ▸ ⟨rfl, Nat.le_succ _⟩
    · exact (Prod.mk.inj (Option.some.inj h)).2 ▸ ⟨rfl, Nat.le_succ _⟩
  · exact (Prod.mk.inj (Option.some.inj h)).2 ▸ ⟨rfl, Nat.le_succ _⟩

/-- A node that is fetched needs memory. -/
theorem btnodeFetch_asks (h : s.btnodeFetch env level pointer = some (o, s')) :
    s'.super = s.super ∧ s.mallocs < s'.mallocs := by
  unfold btnodeFetch btnodeLevelAlloc at h
  by_cases hok : env.granted s.mallocs = true
  · simp only [malloc, hok, if_true] at h
    obtain ⟨⟨ok, s₁⟩, hread, h⟩ := Option.bind_eq_some_iff.mp h
    obtain ⟨hsuper, hmallocs⟩ := btnodeRead_asks hread
    split_ifs at h
    · exact (Prod.mk.inj (Option.some.inj h)).2 ▸ ⟨hsuper, hmallocs⟩
    · exact (Prod.mk.inj (Option.some.inj h)).2 ▸ ⟨hsuper, hmallocs⟩
  · simp only [malloc, hok, Bool.false_eq_true, if_false] at h
    exact (Prod.mk.inj (Option.some.inj h)).2 ▸ ⟨rfl, Nat.lt_succ_self _⟩

theorem btnodeFetchTwig_asks (h : s.btnodeFetchTwig env x index = some (o, s')) : Asks s s' := by
  simp only [btnodeFetchTwig, Option.bind_eq_bind, Option.bind_eq_some_iff] at h
  obtain ⟨node, -, page, -, twig, -, pointers, -, entry, -, slot, -, h⟩ := h
  cases slot with
  | some child =>
      obtain ⟨⟨ok, s₁⟩, hread, h⟩ := Option.bind_eq_some_iff.mp h
      obtain ⟨hsuper, hmallocs⟩ := btnodeRead_asks hread
      exact (Prod.mk.inj (Option.some.inj h)).2 ▸ ⟨hsuper, hmallocs⟩
  | none =>
      obtain ⟨⟨child, s₁⟩, hfetch, h⟩ := Option.bind_eq_some_iff.mp h
      obtain ⟨node', -, h⟩ := Option.bind_eq_some_iff.mp h
      obtain ⟨hsuper, hmallocs⟩ := btnodeFetch_asks hfetch
      exact (Prod.mk.inj (Option.some.inj h)).2 ▸ ⟨hsuper, hmallocs.le⟩

theorem btreeFetchRoot_asks (h : s.btreeFetchRoot env = some (o, s')) : Asks s s' := by
  unfold btreeFetchRoot at h
  cases hroot : s.root with
  | some root =>
      rw [hroot] at h
      obtain ⟨⟨ok, s₁⟩, hread, h⟩ := Option.bind_eq_some_iff.mp h
      obtain ⟨hsuper, hmallocs⟩ := btnodeRead_asks hread
      exact (Prod.mk.inj (Option.some.inj h)).2 ▸ ⟨hsuper, hmallocs⟩
  | none =>
      rw [hroot] at h
      obtain ⟨⟨root, s₁⟩, hfetch, h⟩ := Option.bind_eq_some_iff.mp h
      obtain ⟨hsuper, hmallocs⟩ := btnodeFetch_asks hfetch
      exact (Prod.mk.inj (Option.some.inj h)).2 ▸ ⟨hsuper, hmallocs.le⟩

variable [LinearOrder K]

theorem lookupLoop_asks {n : ℕ}
    (h : lookupLoop env key level n o place s = some (o', place', s')) : Asks s s' := by
  induction n generalizing o place s with
  | zero =>
      cases o with
      | none => exact (Prod.mk.inj (Prod.mk.inj (Option.some.inj h)).2).2 ▸ Asks.refl s
      | some x => cases h
  | succ n ih =>
      cases o with
      | none => exact (Prod.mk.inj (Prod.mk.inj (Option.some.inj h)).2).2 ▸ Asks.refl s
      | some x =>
          obtain ⟨place₁, -, h⟩ := Option.bind_eq_some_iff.mp h
          obtain ⟨page, -, h⟩ := Option.bind_eq_some_iff.mp h
          by_cases htarget : page.level = level
          · rw [if_pos htarget] at h
            exact (Prod.mk.inj (Prod.mk.inj (Option.some.inj h)).2).2 ▸ Asks.refl s
          rw [if_neg htarget] at h
          by_cases hleaf : page.level = 1
          · rw [if_pos hleaf] at h
            obtain ⟨s₁, hrelease, h⟩ := Option.bind_eq_some_iff.mp h
            exact (Prod.mk.inj (Prod.mk.inj (Option.some.inj h)).2).2 ▸ btnodeRelease_asks hrelease
          · rw [if_neg hleaf] at h
            obtain ⟨⟨under, s₁⟩, hfetch, h⟩ := Option.bind_eq_some_iff.mp h
            obtain ⟨s₂, hrelease, h⟩ := Option.bind_eq_some_iff.mp h
            exact ((btnodeFetchTwig_asks hfetch).trans (btnodeRelease_asks hrelease)).trans (ih h)

theorem btreeLookupLevel_asks
    (h : s.btreeLookupLevel env key level place = some (o, place', s')) : Asks s s' := by
  obtain ⟨⟨root, s₁⟩, hfetch, h⟩ := Option.bind_eq_some_iff.mp h
  exact (btreeFetchRoot_asks hfetch).trans (lookupLoop_asks h)

end Btree

end Carthage
