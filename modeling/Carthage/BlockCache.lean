import Carthage.BtreeNode
import Carthage.LinkedChain

/-!
# The block cache

The hash chains of the cache. Unlinking the first slot of a chain drops the whole chain, so
a slot may hold a block and be on no chain; what is found in the cache was added under the
number it is found by.
-/

namespace Carthage

namespace Cache

variable {K : Type} {c c' : Cache K} {chain : ℕ → List ℕ} {i b : ℕ}

/-- The chain pointer of a slot. -/
def hashLink (K : Type) : LinkField ℕ (CacheSlot K) where
  get slot := slot.hash
  set q slot := { slot with hash := q }
  get_set _ _ := rfl

def cells (c : Cache K) (i : ℕ) : Option (CacheSlot K) := some (c.slots i)

/-- `chain b` lists the slots in bucket `b`, from its start. -/
structure Chains (c : Cache K) (chain : ℕ → List ℕ) : Prop where
  size : c.size ≠ 0
  ring : c.ring ≠ []
  used : ∀ i ∈ c.ring, i < c.used
  linked : ∀ b, (hashLink K).Chain c.cells (c.table b) (chain b)
  nodup : ∀ b, (chain b).Nodup
  member : ∀ b, ∀ i ∈ chain b, i < c.used ∧ c.hashOf (c.slots i).blocknr = b ∧
    (c.slots i).block.isSome

/-- The two caches hold the same blocks under the same numbers. -/
structure SameBlocks (c c' : Cache K) : Prop where
  size : c'.size = c.size
  used : c'.used = c.used
  ring : c'.ring = c.ring
  blocknr : ∀ i, (c'.slots i).blocknr = (c.slots i).blocknr
  block : ∀ i, (c'.slots i).block = (c.slots i).block

theorem SameBlocks.refl (c : Cache K) : SameBlocks c c :=
  ⟨rfl, rfl, rfl, fun _ => rfl, fun _ => rfl⟩

namespace Chains

theorem length_le (h : Chains c chain) (b : ℕ) : (chain b).length ≤ c.used := by
  have hsub : chain b ⊆ List.range c.used := fun i hi =>
    List.mem_range.mpr (h.member b i hi).1
  have hle := (List.Nodup.subperm (h.nodup b) hsub).length_le
  rwa [List.length_range] at hle

theorem notMem_other (h : Chains c chain) (hb : b ≠ c.hashOf (c.slots i).blocknr) :
    i ∉ chain b := fun hi => hb (h.member b i hi).2.1.symm

end Chains

/-! ## Finding a slot -/

theorem find_chain {as : List ℕ} {p : Option ℕ} {fuel : ℕ}
    (h : (hashLink K).Chain c.cells p as) (hfuel : as.length ≤ fuel) (b : ℕ) :
    c.find b fuel p = some (as.find? fun i => (c.slots i).blocknr = b) := by
  induction as generalizing p fuel with
  | nil =>
      obtain rfl : p = none := h
      cases fuel <;> rfl
  | cons i as ih =>
      obtain ⟨rfl, n, hn, hrest⟩ := h
      obtain rfl : c.slots i = n := Option.some.inj hn
      obtain ⟨m, rfl⟩ : ∃ m, fuel = m + 1 := ⟨fuel - 1, by simp at hfuel; omega⟩
      rw [find]
      by_cases hb : (c.slots i).blocknr = b
      · rw [if_pos hb, List.find?_cons_of_pos (by simpa using hb)]
      · rw [if_neg hb, List.find?_cons_of_neg (by simpa using hb)]
        apply ih hrest
        simpa using hfuel

/-! ## Unlinking a slot -/

theorem setSlot_cells {slot : CacheSlot K} :
    (c.setSlot i slot).cells = Function.update c.cells i (some slot) := by
  funext j
  by_cases hj : j = i
  · subst hj
    simp [cells, setSlot]
  · simp [cells, setSlot, hj]

theorem cells_relink (c : Cache K) (p : ℕ) (q : Option ℕ) :
    (c.setSlot p { c.slots p with hash := q }).cells = (hashLink K).relink c.cells p q :=
  setSlot_cells

theorem SameBlocks.setHash (c : Cache K) (p : ℕ) (q : Option ℕ) :
    SameBlocks c (c.setSlot p { c.slots p with hash := q }) := by
  refine ⟨rfl, rfl, rfl, fun j => ?_, fun j => ?_⟩
  · by_cases hj : j = p
    · subst hj
      simp [setSlot]
    · simp [setSlot, hj]
  · by_cases hj : j = p
    · subst hj
      simp [setSlot]
    · simp [setSlot, hj]

/-- Unlinking a slot from a chain that does not start with it. -/
theorem unchain_chain {pre as : List ℕ} {p start : Option ℕ} {fuel : ℕ}
    (hpre : (hashLink K).Path c.cells start pre p) (h : (hashLink K).Chain c.cells p as)
    (hnd : (pre ++ as).Nodup) (hhead : as.head? ≠ some i) (hfuel : as.length ≤ fuel) :
    ∃ c', c.unchain i fuel p = some c' ∧ SameBlocks c c' ∧ c'.table = c.table ∧
      (∀ j, j ∉ as → c'.slots j = c.slots j) ∧
      (hashLink K).Chain c'.cells start (pre ++ as.filter (· ≠ i)) := by
  induction as generalizing pre p fuel with
  | nil =>
      obtain rfl : p = none := h
      refine ⟨c, by cases fuel <;> rfl, .refl c, rfl, fun _ _ => rfl, ?_⟩
      rw [List.filter_nil, List.append_nil]
      exact hpre
  | cons a as ih =>
      obtain ⟨rfl, n, hn, hrest⟩ := h
      obtain rfl : c.slots a = n := Option.some.inj hn
      have hai : a ≠ i := fun ha => hhead (by rw [List.head?_cons, ha])
      obtain ⟨m, rfl⟩ : ∃ m, fuel = m + 1 := ⟨fuel - 1, by simp at hfuel; omega⟩
      have hpath : (hashLink K).Path c.cells start (pre ++ [a]) (c.slots a).hash :=
        LinkField.path_concat.mpr ⟨hpre, c.slots a, rfl, rfl⟩
      have hassoc : pre ++ a :: as = pre ++ [a] ++ as := by simp
      have hfilter : (a :: as).filter (· ≠ i) = a :: as.filter (· ≠ i) :=
        List.filter_cons_of_pos (by simpa using hai)
      rw [unchain]
      by_cases hnext : (c.slots a).hash = some i
      · rw [if_pos hnext]
        have hrest' : (hashLink K).Chain c.cells (some i) as := hnext ▸ hrest
        cases as with
        | nil => cases hrest'
        | cons i' post =>
            obtain ⟨hi, n', hn', hpost⟩ := hrest'
            obtain rfl := Option.some.inj hi
            obtain rfl : c.slots i = n' := Option.some.inj hn'
            obtain ⟨-, hcons, hcross⟩ := List.nodup_append.mp hnd
            have ha : a ∉ post := fun hp =>
              (List.nodup_cons.mp hcons).1 (List.mem_cons_of_mem _ hp)
            have hi : i ∉ post := (List.nodup_cons.mp (List.nodup_cons.mp hcons).2).1
            have hap : a ∉ pre := fun hp => hcross a hp a List.mem_cons_self rfl
            have hpost' : post.filter (· ≠ i) = post :=
              List.filter_eq_self.mpr fun j hj => by
                simpa using fun hji : j = i => hi (hji ▸ hj)
            have hself : (a :: i :: post).filter (· ≠ i) = a :: post := by
              rw [hfilter, List.filter_cons_of_neg (by simp), hpost']
            refine ⟨_, rfl, .setHash c a _, rfl, fun j hj => ?_, ?_⟩
            · exact Function.update_of_ne (fun hja : j = a => hj (by simp [hja])) _ _
            · rw [hself, LinkField.Chain, cells_relink, ← List.singleton_append,
                ← List.append_assoc, LinkField.path_append]
              exact ⟨_, hpath.relink_last hap, LinkField.Path.relink_of_notMem hpost ha⟩
      · rw [if_neg hnext]
        have hhead' : as.head? ≠ some i := fun hh =>
          hnext ((LinkField.Path.start_eq_head hrest).trans hh)
        obtain ⟨c', hrun, hsame, htable, hother, hchain⟩ :=
          ih hpath hrest (hassoc ▸ hnd) hhead' (by simpa using hfuel)
        refine ⟨c', hrun, hsame, htable, fun j hj => hother j fun h => hj (by simp [h]), ?_⟩
        rw [hfilter]
        simpa using hchain

theorem SameBlocks.hashOf (h : SameBlocks c c') (b : ℕ) : c'.hashOf b = c.hashOf b := by
  unfold Cache.hashOf
  rw [h.size]

theorem Chains.shrink {chain' : ℕ → List ℕ} (h : Chains c chain) (hs : SameBlocks c c')
    (hlinked : ∀ b, (hashLink K).Chain c'.cells (c'.table b) (chain' b))
    (hsub : ∀ b, (chain' b).Sublist (chain b)) : Chains c' chain' where
  size := hs.size ▸ h.size
  ring := hs.ring ▸ h.ring
  used i hi := by
    rw [hs.ring] at hi
    rw [hs.used]
    exact h.used i hi
  linked := hlinked
  nodup b := (h.nodup b).sublist (hsub b)
  member b i hi := by
    rw [hs.used, hs.hashOf, hs.blocknr, hs.block]
    exact h.member b i ((hsub b).subset hi)

def Stays (c : Cache K) (i b j : ℕ) : Prop :=
  j ≠ i ∧ (b = c.hashOf (c.slots i).blocknr → c.table b ≠ some i)

def unlinked (c : Cache K) (chain : ℕ → List ℕ) (i : ℕ) : ℕ → List ℕ :=
  let b := c.hashOf (c.slots i).blocknr
  Function.update chain b (if c.table b = some i then [] else (chain b).filter (· ≠ i))

def cut {α : Type} (before behind : List α) : List α :=
  if before.isEmpty then [] else before ++ behind

theorem map_cut {α β : Type} (f : α → β) (before behind : List α) :
    (cut before behind).map f = cut (before.map f) (behind.map f) := by
  cases before with
  | nil => rfl
  | cons a before => exact List.map_append

theorem Chains.mem_unlinked (h : Chains c chain) (i j : ℕ) :
    j ∈ c.unlinked chain i b ↔ j ∈ chain b ∧ c.Stays i b j := by
  unfold unlinked Stays
  by_cases hb : b = c.hashOf (c.slots i).blocknr
  · subst hb
    rw [Function.update_self]
    split_ifs with hfirst
    · simp [hfirst]
    · simp [hfirst]
  · rw [Function.update_of_ne hb]
    constructor
    · exact fun hj => ⟨hj, fun hji => h.notMem_other hb (hji ▸ hj), fun hb' => absurd hb' hb⟩
    · exact fun hj => hj.1

theorem Chains.unlinked_of_split (h : Chains c chain) {before behind : List ℕ}
    (hsplit : chain (c.hashOf (c.slots i).blocknr) = before ++ i :: behind) :
    c.unlinked chain i =
      Function.update chain (c.hashOf (c.slots i).blocknr) (cut before behind) := by
  have hstart := LinkField.Path.start_eq_head (h.linked (c.hashOf (c.slots i).blocknr))
  have hnd := h.nodup (c.hashOf (c.slots i).blocknr)
  rw [hsplit] at hstart hnd
  unfold unlinked cut
  simp only [hsplit]
  congr 1
  cases before with
  | nil => exact if_pos hstart
  | cons a before =>
      have hnot : i ∉ a :: before ++ behind := (List.nodup_middle.mp hnd).notMem
      have hai : a ≠ i := fun ha => hnot (ha ▸ List.mem_cons_self)
      have hfirst : c.table (c.hashOf (c.slots i).blocknr) ≠ some i := by
        rw [hstart]
        exact fun ha => hai (Option.some.inj ha)
      have hself : ∀ ls ⊆ a :: before ++ behind, ls.filter (· ≠ i) = ls := fun ls hls =>
        List.filter_eq_self.mpr fun j hj => by
          simpa using fun hji : j = i => hnot (hji ▸ hls hj)
      have hbefore := hself (a :: before) (List.subset_append_left _ _)
      have hbehind := hself behind (List.subset_append_right _ _)
      have hgone : (i :: behind).filter (· ≠ i) = behind.filter (· ≠ i) :=
        List.filter_cons_of_neg (by simp)
      rw [if_neg hfirst, List.filter_append, hgone, hbefore, hbehind]
      rfl

theorem Chains.unlinked_of_notMem (h : Chains c chain)
    (hnot : i ∉ chain (c.hashOf (c.slots i).blocknr)) : c.unlinked chain i = chain := by
  have hstart := LinkField.Path.start_eq_head (h.linked (c.hashOf (c.slots i).blocknr))
  have hfirst : c.table (c.hashOf (c.slots i).blocknr) ≠ some i := by
    rw [hstart]
    exact fun hi => hnot (List.mem_of_mem_head? hi)
  have hself : (chain (c.hashOf (c.slots i).blocknr)).filter (· ≠ i) =
      chain (c.hashOf (c.slots i).blocknr) :=
    List.filter_eq_self.mpr fun j hj => by
      simpa using fun hji : j = i => hnot (hji ▸ hj)
  unfold unlinked
  simp only [if_neg hfirst, hself, Function.update_eq_self]

/-- A slot that was unlinked is on no chain, and when it was the first of its chain, none is. -/
theorem Chains.unhash (h : Chains c chain) (i : ℕ) :
    ∃ c', c.unhash i = some c' ∧ SameBlocks c c' ∧ Chains c' (c.unlinked chain i) := by
  have hsub : ∀ b, (c.unlinked chain i b).Sublist (chain b) := fun b => by
    unfold unlinked
    by_cases hb : b = c.hashOf (c.slots i).blocknr
    · subst hb
      rw [Function.update_self]
      split_ifs
      · exact List.nil_sublist _
      · exact List.filter_sublist
    · rw [Function.update_of_ne hb]
  rw [Cache.unhash]
  by_cases hfirst : c.table (c.hashOf (c.slots i).blocknr) = some i
  · -- The whole chain is dropped.
    refine ⟨_, if_pos hfirst, ⟨rfl, rfl, rfl, fun _ => rfl, fun _ => rfl⟩, ?_⟩
    refine h.shrink ⟨rfl, rfl, rfl, fun _ => rfl, fun _ => rfl⟩ (fun b => ?_) hsub
    unfold unlinked
    by_cases hb : b = c.hashOf (c.slots i).blocknr
    · subst hb
      simp only [Function.update_self, if_pos hfirst]
      exact rfl
    · simp only [Function.update_of_ne hb]
      exact h.linked b
  · let b₀ := c.hashOf (c.slots i).blocknr
    have hhead : (chain b₀).head? ≠ some i := fun hh =>
      hfirst ((LinkField.Path.start_eq_head (h.linked b₀)).trans hh)
    have hlen : (chain b₀).length ≤ c.used + 1 := (h.length_le b₀).trans (Nat.le_succ _)
    obtain ⟨c', hrun, hsame, htable, hrest, hchain⟩ :=
      unchain_chain (LinkField.path_nil.mpr rfl) (h.linked b₀)
        (by simpa using h.nodup b₀) hhead hlen
    refine ⟨c', ?_, hsame, h.shrink hsame (fun b => ?_) hsub⟩
    · rw [← hrun]
      exact if_neg hfirst
    · rw [htable]
      unfold unlinked
      by_cases hb : b = b₀
      · subst hb
        simp only [Function.update_self, b₀, if_neg hfirst]
        simpa using hchain
      · simp only [Function.update_of_ne (show b ≠ c.hashOf (c.slots i).blocknr from hb)]
        refine (h.linked b).congr_eq fun j hj => ?_
        have hj₀ : j ∉ chain b₀ := fun hj' =>
          hb ((h.member b j hj).2.1.symm.trans (h.member b₀ j hj').2.1)
        simp only [cells, hrest j hj₀]

/-! ## The operations -/

theorem Chains.vacate (h : Chains c chain) (hno : ∀ b, i ∉ chain b) {ring : List ℕ}
    (hne : ring ≠ []) (hring : ∀ j ∈ ring, j < c.used) (slot : CacheSlot K) :
    Chains { c with ring := ring, slots := Function.update c.slots i slot } chain := by
  refine ⟨h.size, hne, hring, fun b => ?_, h.nodup, fun b j hj => ?_⟩
  · refine (h.linked b).congr_eq fun j hj => ?_
    have hji : j ≠ i := fun hji => hno b (hji ▸ hj)
    simp only [cells, Function.update_of_ne hji]
  · have hji : j ≠ i := fun hji => hno b (hji ▸ hj)
    have hmem := h.member b j hj
    simp only [Cache.hashOf, Function.update_of_ne hji]
    exact hmem

theorem Chains.grow (h : Chains c chain) :
    Chains { c with ring := c.used :: c.ring, used := c.used + 1 } chain := by
  refine ⟨h.size, by simp, fun j hj => ?_, h.linked, h.nodup, fun b j hj => ?_⟩
  · rcases List.mem_cons.mp hj with rfl | hj
    · exact Nat.lt_succ_self _
    · exact (h.used j hj).trans (Nat.lt_succ_self _)
  · obtain ⟨hlt, hb, hblock⟩ := h.member b j hj
    exact ⟨hlt.trans (Nat.lt_succ_self _), hb, hblock⟩

theorem Chains.link (h : Chains c chain) (hno : ∀ b, i ∉ chain b) (hi : i < c.used) (b : ℕ)
    (page : Page K) : Chains (c.link i b (some page))
      (Function.update chain (c.hashOf b) (i :: chain (c.hashOf b))) := by
  let b₀ := c.hashOf b
  have hcells : ∀ j, j ≠ i → (c.link i b (some page)).cells j = c.cells j := fun j hj => by
    simp only [cells, Cache.link, Function.update_of_ne hj]
  have hkeep : ∀ b', (hashLink K).Chain (c.link i b (some page)).cells (c.table b') (chain b') :=
    fun b' => (h.linked b').congr_eq fun j hj => hcells j fun hji => hno b' (hji ▸ hj)
  refine ⟨h.size, h.ring, h.used, fun b' => ?_, fun b' => ?_, fun b' j hj => ?_⟩
  · by_cases hb : b' = b₀
    · subst hb
      have htable : (c.link i b (some page)).table b₀ = some i := Function.update_self _ _ _
      have hslot : (c.link i b (some page)).cells i = some ⟨c.table b₀, b, some page⟩ := by
        simp only [cells, Cache.link, Function.update_self, b₀]
      rw [htable, Function.update_self]
      exact ⟨rfl, _, hslot, hkeep b₀⟩
    · have htable : (c.link i b (some page)).table b' = c.table b' := Function.update_of_ne hb _ _
      rw [htable, Function.update_of_ne hb]
      exact hkeep b'
  · by_cases hb : b' = b₀
    · subst hb
      rw [Function.update_self]
      exact List.nodup_cons.mpr ⟨hno b₀, h.nodup b₀⟩
    · rw [Function.update_of_ne hb]
      exact h.nodup b'
  · have hold : ∀ b', j ∈ chain b' → j < c.used ∧
        c.hashOf ((c.link i b (some page)).slots j).blocknr = b' ∧
        ((c.link i b (some page)).slots j).block.isSome := fun b' hj => by
      have hji : j ≠ i := fun hji => hno b' (hji ▸ hj)
      simp only [Cache.link, Function.update_of_ne hji]
      exact h.member b' j hj
    by_cases hb : b' = b₀
    · subst hb
      rw [Function.update_self] at hj
      rcases List.mem_cons.mp hj with rfl | hj
      · simp only [Cache.link, Function.update_self]
        exact ⟨hi, rfl, rfl⟩
      · exact hold b₀ hj
    · rw [Function.update_of_ne hb] at hj
      exact hold b' hj

/-- The cache without the block in slot `i`. -/
def vacated (c : Cache K) (i : ℕ) : Cache K :=
  { c with
    ring := c.ring.erase i ++ [i],
    slots := Function.update c.slots i { c.slots i with block := none } }

theorem Chains.eject (h : Chains c chain) (hi : i < c.used) :
    ∃ c₁, c.eject i = some (c₁.vacated i) ∧ SameBlocks c c₁ ∧
      Chains (c₁.vacated i) (c.unlinked chain i) := by
  obtain ⟨c₁, hrun, hsame, hc₁⟩ := h.unhash i
  refine ⟨c₁, ?_, hsame, ?_⟩
  · rw [Cache.eject, hrun]
    rfl
  · have hno : ∀ b, i ∉ c.unlinked chain i b := fun b hmem => ((h.mem_unlinked i i).mp hmem).2.1 rfl
    apply hc₁.vacate hno (by simp)
    intro j hj
    rcases List.mem_append.mp hj with hj | hj
    · exact hc₁.used j (List.mem_of_mem_erase hj)
    · rw [List.mem_singleton.mp hj, hsame.used]
      exact hi

theorem Chains.add (h : Chains c chain) (b : ℕ) (page : Page K) :
    ∃ i c₁ chain₁, c.add b (some page) = some (c₁.link i b (some page)) ∧ Chains c₁ chain₁ ∧
      (∀ b', i ∉ chain₁ b') ∧ i < c₁.used ∧
      ((c.growing = true ∧ i = c.used ∧ chain₁ = chain ∧
          c₁ = { c with ring := c.used :: c.ring, used := c.used + 1 }) ∨
        (c.growing = false ∧ c.ring.getLast? = some i ∧
          SameBlocks { c with ring := i :: c.ring.dropLast } c₁ ∧
          chain₁ = if (c.slots i).block.isSome then c.unlinked chain i else chain)) := by
  unfold Cache.add
  by_cases hgrow : c.growing = true
  · rw [if_pos hgrow]
    have hno : ∀ b', c.used ∉ chain b' := fun b' hmem =>
      (Nat.lt_irrefl _) (h.member b' _ hmem).1
    exact ⟨c.used, _, chain, rfl, h.grow, hno, Nat.lt_succ_self _, Or.inl ⟨hgrow, rfl, rfl, rfl⟩⟩
  · rw [if_neg hgrow]
    obtain ⟨init, i, hring⟩ : ∃ init i, c.ring = init ++ [i] :=
      ⟨c.ring.dropLast, c.ring.getLast h.ring, (List.dropLast_append_getLast h.ring).symm⟩
    have hlast : c.ring.getLast? = some i := by simp [hring]
    have hmem : ∀ j ∈ i :: c.ring.dropLast, j ∈ c.ring := fun j hj => by
      rcases List.mem_cons.mp hj with rfl | hj
      · simp [hring]
      · exact List.mem_of_mem_dropLast hj
    have hc₁ : Chains { c with ring := i :: c.ring.dropLast } chain :=
      ⟨h.size, by simp, fun j hj => h.used j (hmem j hj), h.linked, h.nodup, h.member⟩
    have hi : i < c.used := h.used i (by simp [hring])
    rw [Bool.not_eq_true] at hgrow
    simp only [hlast, Option.bind_eq_bind, Option.bind_some]
    by_cases hblock : (c.slots i).block.isSome
    · obtain ⟨c₂, hrun, hsame, hc₂⟩ := hc₁.unhash i
      have hi₂ : i < c₂.used := hsame.used ▸ hi
      have hno : ∀ b', i ∉ c.unlinked chain i b' := fun b' hi' =>
        ((h.mem_unlinked i i).mp hi').2.1 rfl
      refine ⟨i, c₂, _, ?_, hc₂, hno, hi₂, Or.inr ⟨hgrow, rfl, hsame, (if_pos hblock).symm⟩⟩
      simp only [hblock, hrun, if_true, Option.bind_some, Option.pure_def]
    · have hno : ∀ b', i ∉ chain b' := fun b' hi' => hblock (h.member b' i hi').2.2
      refine ⟨i, _, chain, ?_, hc₁, hno, hi, Or.inr ⟨hgrow, rfl, .refl _, (if_neg hblock).symm⟩⟩
      simp only [hblock, if_false, Bool.false_eq_true, Option.pure_def]

/-- Every block in a slot is one that `P` allows under its number. -/
structure Good (P : ℕ → Page K → Prop) (c : Cache K) : Prop where
  chains : ∃ chain, Chains c chain
  block : ∀ i page, (c.slots i).block = some page → P (c.slots i).blocknr page

/-- A cache that is switched off, or whose blocks are those that `P` allows. -/
def Sound (P : ℕ → Page K → Prop) (c : Cache K) : Prop := c.size = 0 ∨ Good P c

variable {P : ℕ → Page K → Prop} {page : Page K}

theorem Good.sameBlocks {ring : List ℕ} (h : Good P c) (hs : SameBlocks { c with ring := ring } c')
    (hj : (c'.slots i).block = some page) : P (c'.slots i).blocknr page := by
  rw [hs.block] at hj
  rw [hs.blocknr]
  exact h.block i page hj

theorem Good.eject {chain : ℕ → List ℕ} (h : Good P c) (hc : Chains c chain)
    (hi : i ∈ chain b) : ∃ c', c.eject i = some c' ∧ Good P c' ∧ c'.size = c.size := by
  obtain ⟨c₁, hrun, hsame, hc₁⟩ := hc.eject (hc.member b i hi).1
  refine ⟨c₁.vacated i, hrun, ⟨⟨_, hc₁⟩, fun j page hj => ?_⟩, hsame.size⟩
  unfold vacated at hj ⊢
  by_cases hji : j = i
  · subst hji
    simp only [Function.update_self] at hj
    cases hj
  · simp only [Function.update_of_ne hji] at hj ⊢
    have hsame' : SameBlocks { c with ring := c.ring } c₁ := hsame
    exact h.sameBlocks hsame' hj

theorem Sound.lookup (h : Sound P c) (b : ℕ) :
    ∃ block c', c.lookup b = some (block, c') ∧ Sound P c' ∧ c'.size = c.size ∧
      ∀ page, block = some page → P b page := by
  rw [Cache.lookup]
  by_cases hsize : c.size = 0
  · rw [if_pos hsize]
    exact ⟨none, c, rfl, h, rfl, fun page hp => by cases hp⟩
  · have hg := h.resolve_left hsize
    obtain ⟨chain, hc⟩ := hg.chains
    have hlen := (hc.length_le (c.hashOf b)).trans (Nat.le_succ _)
    have hfind := find_chain (hc.linked (c.hashOf b)) hlen b
    rw [if_neg hsize]
    simp only [hfind, Option.bind_eq_bind, Option.bind_some]
    cases hslot : (chain (c.hashOf b)).find? (fun i => (c.slots i).blocknr = b) with
    | none => exact ⟨none, c, rfl, h, rfl, fun page hp => by cases hp⟩
    | some i =>
        have hi : (c.slots i).blocknr = b := by
          simpa using List.find?_some hslot
        obtain ⟨c', hrun, hg', hs'⟩ := hg.eject hc (List.mem_of_find?_eq_some hslot)
        refine ⟨(c.slots i).block, c', ?_, Or.inr hg', hs', fun page hp => ?_⟩
        · simp only [hrun, Option.bind_some, Option.pure_def]
        · rw [← hi]
          exact hg.block i page hp

theorem Good.add (h : Good P c) (hp : P b page) :
    ∃ c', c.add b (some page) = some c' ∧ Good P c' ∧ c'.size = c.size := by
  obtain ⟨chain, hc⟩ := h.chains
  obtain ⟨i, c₁, chain₁, hrun, hc₁, hno, hi, hcases⟩ := hc.add b page
  have hblocks : ∀ j page', (c₁.slots j).block = some page' → P (c₁.slots j).blocknr page' := by
    intro j page' hj
    rcases hcases with ⟨-, -, -, rfl⟩ | ⟨-, -, hsame, -⟩
    · exact h.block j page' hj
    · exact h.sameBlocks hsame hj
  have hsize : c₁.size = c.size := by
    rcases hcases with ⟨-, -, -, rfl⟩ | ⟨-, -, hsame, -⟩
    · rfl
    · exact hsame.size
  refine ⟨_, hrun, ⟨⟨_, hc₁.link hno hi b page⟩, fun j page' hj => ?_⟩, hsize⟩
  by_cases hji : j = i
  · subst hji
    simp only [Cache.link, Function.update_self, Option.some.injEq] at hj ⊢
    exact hj ▸ hp
  · simp only [Cache.link, Function.update_of_ne hji] at hj ⊢
    exact hblocks j page' hj

end Cache

end Carthage
