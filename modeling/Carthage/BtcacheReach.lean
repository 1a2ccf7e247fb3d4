import Carthage.BtcacheRuns

/-!
# Blocks that the cache loses

A slot that holds a block is found from its bucket, unless the first slot of its chain was taken
or evicted before it: that empties the bucket.
-/

namespace Carthage

variable {K : Type}

namespace Cache

variable {c c₁ c' : Cache K} {chain chain₁ : ℕ → List ℕ} {n i j b : ℕ} {page : Page K}
  {ring : List ℕ} {entries : List (ℕ × Page K)}

def Reaches (c : Cache K) (i : ℕ) : Prop :=
  ∃ as, (hashLink K).Chain c.cells (c.table (c.hashOf (c.slots i).blocknr)) as ∧ i ∈ as

/-- No block that the cache holds is lost. -/
def Whole (c : Cache K) : Prop := ∀ i < c.used, (c.slots i).block.isSome → c.Reaches i

def HeadOfMore (c : Cache K) (i : ℕ) : Prop :=
  c.table (c.hashOf (c.slots i).blocknr) = some i ∧ (c.slots i).hash ≠ none

theorem Chains.reaches_iff (h : Chains c chain) (i : ℕ) :
    c.Reaches i ↔ i ∈ chain (c.hashOf (c.slots i).blocknr) := by
  constructor
  · rintro ⟨as, has, hi⟩
    obtain rfl := has.unique (h.linked _)
    exact hi
  · intro hi
    exact ⟨_, h.linked _, hi⟩

/-- When no block is lost, unlinking a slot loses none exactly when no slot comes behind it at the
start of a chain. -/
theorem Chains.stays_iff (h : Chains c chain) (hw : c.Whole) (i : ℕ) :
    (∀ j < c.used, (c.slots j).block.isSome → j ≠ i →
      c.Stays i (c.hashOf (c.slots j).blocknr) j) ↔ ¬ c.HeadOfMore i := by
  constructor
  · rintro hstays ⟨htable, hhash⟩
    have hlinked := h.linked (c.hashOf (c.slots i).blocknr)
    have hhead := LinkField.Path.start_eq_head hlinked
    rw [htable] at hhead
    obtain ⟨rest, hchain⟩ := List.head?_eq_some_iff.mp hhead.symm
    have hnd := h.nodup (c.hashOf (c.slots i).blocknr)
    rw [hchain] at hlinked hnd
    obtain ⟨-, slot, hslot, hrest⟩ := hlinked
    obtain rfl : c.slots i = slot := Option.some.inj hslot
    -- The slot behind `i` does not stay.
    cases rest with
    | nil => exact hhash hrest
    | cons j rest =>
        have hj : j ∈ chain (c.hashOf (c.slots i).blocknr) := by
          rw [hchain]
          simp
        obtain ⟨hlt, hbucket, hblock⟩ := h.member _ j hj
        have hji : j ≠ i := by
          rintro rfl
          simp at hnd
        exact (hstays j hlt hblock hji).2 hbucket (hbucket ▸ htable)
  · intro hhead j hlt hblock hji
    refine ⟨hji, ?_⟩
    intro hbucket htable
    apply hhead
    refine ⟨hbucket ▸ htable, ?_⟩
    intro hnone
    have hj := (h.reaches_iff j).mp (hw j hlt hblock)
    have hlinked := h.linked (c.hashOf (c.slots j).blocknr)
    rw [htable] at hlinked
    cases hchain : chain (c.hashOf (c.slots j).blocknr) with
    | nil =>
        rw [hchain] at hlinked
        cases hlinked
    | cons a rest =>
        rw [hchain] at hlinked hj
        obtain ⟨ha, slot, hslot, hrest⟩ := hlinked
        obtain rfl := Option.some.inj ha
        obtain rfl : c.slots i = slot := Option.some.inj hslot
        have hrest' : (hashLink K).Chain c.cells none rest := hnone ▸ hrest
        have hend := LinkField.Path.start_eq_head hrest'
        obtain rfl : rest = [] := by
          cases rest with
          | nil => rfl
          | cons d rest => cases hend
        exact hji (List.mem_singleton.mp hj)

theorem whole_eject (h : Chains c chain) (hw : c.Whole) (hi : i < c.used)
    (hrun : c.eject i = some c') : c'.Whole ↔ ¬ c.HeadOfMore i := by
  obtain ⟨c₁, hrun', hsame, hc₁⟩ := h.eject hi
  have hmem : ∀ b j, j ∈ c.unlinked chain i b ↔ j ∈ chain b ∧ c.Stays i b j := fun b j =>
    h.mem_unlinked i j
  obtain rfl := Option.some.inj (hrun'.symm.trans hrun)
  have hsame₁ : SameBlocks { c with ring := c.ring } c₁ := hsame
  have hentry : ∀ j, j ≠ i → ((c₁.vacated i).slots j).blocknr = (c.slots j).blocknr ∧
      ((c₁.vacated i).slots j).block = (c.slots j).block := by
    intro j hj
    unfold vacated
    simp only [Function.update_of_ne hj]
    exact ⟨hsame.blocknr j, hsame.block j⟩
  have hempty : ((c₁.vacated i).slots i).block = none := by
    unfold vacated
    simp only [Function.update_self]
  have hhash : ∀ b, (c₁.vacated i).hashOf b = c.hashOf b := hsame.hashOf
  rw [← h.stays_iff hw]
  unfold Whole
  constructor
  · intro hw' j hlt hblock hji
    have hreach := hw' j (hsame.used ▸ hlt) ((hentry j hji).2 ▸ hblock)
    rw [hc₁.reaches_iff, hhash, (hentry j hji).1, hmem] at hreach
    exact hreach.2
  · intro hstays j hlt hblock
    have hji : j ≠ i := by
      rintro rfl
      rw [hempty] at hblock
      cases hblock
    have hlt' : j < c.used := hsame.used ▸ hlt
    rw [(hentry j hji).2] at hblock
    rw [hc₁.reaches_iff, hhash, (hentry j hji).1, hmem]
    exact ⟨(h.reaches_iff j).mp (hw j hlt' hblock), hstays j hlt' hblock hji⟩

theorem whole_link (h : Chains c chain) (hno : ∀ b', i ∉ chain b') (hi : i < c.used) :
    (c.link i b (some page)).Whole ↔ ∀ j < c.used, j ≠ i → (c.slots j).block.isSome →
      j ∈ chain (c.hashOf (c.slots j).blocknr) := by
  have hc := h.link hno hi b page
  have hmem : ∀ j, j ≠ i → ∀ b', (j ∈ Function.update chain (c.hashOf b)
      (i :: chain (c.hashOf b)) b' ↔ j ∈ chain b') := by
    intro j hj b'
    by_cases hb : b' = c.hashOf b
    · subst hb
      rw [Function.update_self, List.mem_cons, or_iff_right hj]
    · rw [Function.update_of_ne hb]
  have hslot : ∀ j, j ≠ i → (c.link i b (some page)).slots j = c.slots j := by
    intro j hj
    unfold Cache.link
    simp only [Function.update_of_ne hj]
  unfold Whole
  constructor
  · intro hw j hlt hji hblock
    have hreach := hw j hlt (by rw [hslot j hji]; exact hblock)
    rw [hc.reaches_iff, hslot j hji] at hreach
    exact (hmem j hji _).mp hreach
  · intro hothers j hlt hblock
    rw [hc.reaches_iff]
    by_cases hji : j = i
    · subst hji
      have hb : ((c.link j b (some page)).slots j).blocknr = b := by
        unfold Cache.link
        simp only [Function.update_self]
      rw [hb]
      have hhash : (c.link j b (some page)).hashOf b = c.hashOf b := rfl
      rw [hhash, Function.update_self]
      exact List.mem_cons_self
    · rw [hslot j hji] at hblock ⊢
      exact (hmem j hji _).mpr (hothers j hlt hji hblock)

theorem whole_add (h : Chains c chain) (hw : c.Whole) (hrun : c.add b (some page) = some c') :
    c'.Whole ↔ (c.growing = false → ∀ i, c.ring.getLast? = some i →
      (c.slots i).block.isSome → ¬ c.HeadOfMore i) := by
  obtain ⟨i, c₁, chain₁, hrun', hc₁, hno, hi, hcases⟩ := h.add b page
  obtain rfl := Option.some.inj (hrun'.symm.trans hrun)
  rw [whole_link hc₁ hno hi]
  rcases hcases with ⟨hgrow, rfl, rfl, rfl⟩ | ⟨hgrow, hlast, hsame, rfl⟩
  · constructor
    · intro _ hfalse
      rw [hgrow] at hfalse
      cases hfalse
    · intro _ j hlt hji hblock
      have hlt' : j < c.used := lt_of_le_of_ne (Nat.le_of_lt_succ hlt) hji
      exact (h.reaches_iff j).mp (hw j hlt' hblock)
  · have hmem : ∀ b' j, j ∈ (if (c.slots i).block.isSome then c.unlinked chain i else chain) b' ↔
        j ∈ chain b' ∧ ((c.slots i).block.isSome → c.Stays i b' j) := fun b' j => by
      split_ifs with hblock
      · rw [h.mem_unlinked]
        exact and_congr_right fun _ => ⟨fun hj _ => hj, fun hj => hj hblock⟩
      · exact ⟨fun hj => ⟨hj, fun hc => absurd hc hblock⟩, fun hj => hj.1⟩
    have hhash : ∀ b, c₁.hashOf b = c.hashOf b := hsame.hashOf
    have hreach : ∀ j < c.used, (c.slots j).block.isSome →
        j ∈ chain (c.hashOf (c.slots j).blocknr) := fun j hlt hblock =>
      (h.reaches_iff j).mp (hw j hlt hblock)
    constructor
    · rintro hothers - _ hlast' hblock
      obtain rfl := Option.some.inj (hlast.symm.trans hlast')
      rw [← h.stays_iff hw]
      intro j hlt hblock' hji
      have hj := hothers j (hsame.used ▸ hlt) hji (by rw [hsame.block]; exact hblock')
      rw [hhash, hsame.blocknr, hmem] at hj
      exact hj.2 hblock
    · intro hspared j hlt hji hblock
      have hlt' : j < c.used := hsame.used ▸ hlt
      rw [hsame.block] at hblock
      rw [hhash, hsame.blocknr, hmem]
      refine ⟨hreach j hlt' hblock, ?_⟩
      intro hsome
      exact (h.stays_iff hw i).mpr (hspared hgrow i hlast hsome) j hlt' hblock hji

end Cache

namespace Btcache

variable {c c' : Btcache K} {n i b : ℕ} {v : BlockView K} {ring : List ℕ}

def Reaches (c : Btcache K) (i : ℕ) : Prop :=
  ∃ as, (Cache.hashLink K).Chain (fun j => some (c.slots j))
    (c.table (c.hashOf (c.slots i).blocknr)) as ∧ i ∈ as

/-- A block that the cache holds is on its chain, and a lookup of its number is a hit. -/
def Whole (c : Btcache K) : Prop :=
  ∀ i < c.used, (c.slots i).block.isSome → c.Reaches i ∧
    ∃ block c', c.lookup (c.slots i).blocknr = some (some block, c')

def HeadOfMore (c : Btcache K) (i : ℕ) : Prop :=
  c.table (c.hashOf (c.slots i).blocknr) = some i ∧ (c.slots i).hash ≠ none

/-- The block that a call takes out, if any, is not in the first slot of others. -/
def Spares (c : Btcache K) : BtcacheCall K → Prop
  | .add _ _ _ => ∀ head, c.head = some head →
      (c.slots head).block.isNone = true ∨ c.used ≥ c.size →
      (c.slots (c.prev head)).block.isSome → ¬ c.HeadOfMore (c.prev head)
  | .lookup b => ∀ i, c.hit b = some (some i) → ¬ c.HeadOfMore i

theorem lookup_hits (hr : c.Rings ring) (h : (c.flat ring).Arranged n v)
    (hreach : (c.flat ring).Reaches i) (hi : (c.slots i).blocknr = b) :
    ∃ block c', c.lookup b = some (some block, c') := by
  obtain ⟨chain, hc, hbuckets⟩ := h.chains
  obtain ⟨r, c', hlookup, hnone, -⟩ := Arranged.lookup ⟨ring, hr, h⟩ b
  cases r with
  | some block => exact ⟨block, c', hlookup⟩
  | none =>
      have hhash : (c.flat ring).hashOf b = b % n := by rw [Cache.hashOf, h.size]
      have hmem := (hc.reaches_iff i).mp hreach
      rw [show ((c.flat ring).slots i).blocknr = b from hi, hhash] at hmem
      obtain ⟨e, he, hnumber, -⟩ := Cache.isSome_of_view (hbuckets (b % n)) hmem
      exact absurd (hnumber.symm.trans hi) (hnone.mp rfl e he)

theorem whole_iff (hr : c.Rings ring) (h : (c.flat ring).Arranged n v) : c.Whole ↔ (c.flat ring).Whole := by
  constructor
  · intro hw i hlt hblock
    exact (hw i hlt hblock).1
  · intro hw i hlt hblock
    exact ⟨hw i hlt hblock, lookup_hits hr h (hw i hlt hblock) rfl⟩

theorem spares_add_iff (hr : c.Rings ring) (h : (c.flat ring).Arranged n v) (granted : Bool) (b : ℕ) (block : Page K) :
    c.Spares (.add granted b block) ↔ ((c.flat ring).growing = false → ∀ i,
      (c.flat ring).ring.getLast? = some i → (c.slots i).block.isSome → ¬ c.HeadOfMore i) := by
  obtain ⟨chain, hc, -⟩ := h.chains
  obtain ⟨head, rest, hring⟩ := List.exists_cons_of_ne_nil hc.ring
  have hh : ring.head? = some head := by
    rw [show ring = head :: rest from hring]
    rfl
  have hhead : c.head = some head := hr.head.trans hh
  have hlast : (c.flat ring).ring.getLast? = some (c.prev head) := hr.circle.getLast? hh
  have hgrow : (c.flat ring).growing = false ↔
      (c.slots head).block.isNone = true ∨ c.used ≥ c.size := by
    rw [Cache.growing_eq hring, Bool.and_eq_false_iff, decide_eq_false_iff_not, not_lt,
      Option.isNone_iff_eq_none, ← Option.not_isSome_iff_eq_none, Bool.not_eq_true]
    exact Iff.rfl
  constructor
  · intro hspares hg i hi hblock
    obtain rfl := Option.some.inj (hlast.symm.trans hi)
    exact hspares head hhead (hgrow.mp hg) hblock
  · intro hspares head' hhead' hold hblock
    obtain rfl := Option.some.inj (hhead.symm.trans hhead')
    exact hspares (hgrow.mpr hold) _ hlast hblock

/-- A call loses a block exactly when it takes one out of the first slot of others. -/
theorem whole_step (h : c.Arranged n v) (hw : c.Whole)
    (call : BtcacheCall K) : ∃ r c', btcacheStep c call = some (r, c') ∧
      (∃ v', c'.Arranged n v') ∧ (c'.Whole ↔ c.Spares call) := by
  obtain ⟨ring, hr, ha⟩ := h
  obtain ⟨chain, hc, -⟩ := ha.chains
  have hw₀ := (whole_iff hr ha).mp hw
  cases call with
  | add granted b block =>
      have hused : c.used ∉ ring := fun hin => (Nat.lt_irrefl _) ((ha.members _).mp hin)
      obtain ⟨cache, v', hadd, ha', -, -⟩ := ha.add b block
      unfold btcacheStep
      rw [spares_add_iff hr ha]
      rcases hr.add granted hc.ring hused hadd with ⟨hgrow, -, hrun⟩ | ⟨c', ring', hrun, hr', rfl⟩
      · refine ⟨(1, none), c, ?_, ⟨v, ring, hr, ha⟩, ?_⟩
        · simp only [hrun, Option.bind_eq_bind, Option.bind_some, Option.pure_def]
        · simp [hw, hgrow]
      · refine ⟨(0, (c.flat ring).evicted), c', ?_, ⟨v', ring', hr', ha'⟩, ?_⟩
        · simp only [hrun, Option.bind_eq_bind, Option.bind_some, Option.pure_def]
        · rw [whole_iff hr' ha']
          exact Cache.whole_add hc hw₀ hadd
  | lookup b =>
      have hsize : ¬ c.size = 0 := hc.size
      unfold btcacheStep lookup Spares
      obtain ⟨r, hfind⟩ := ha.find_total b
      have hhit : c.hit b = some r := by
        rw [flat_find] at hfind
        exact hfind
      cases r with
      | none =>
          refine ⟨(0, none), c, ?_, ⟨v, ring, hr, ha⟩, ?_⟩
          · simp only [if_neg hsize, hhit, Option.bind_eq_bind, Option.bind_some, Option.pure_def]
          · simp [hw, hhit]
      | some i =>
          obtain ⟨hlt, hb, -, chain', before, behind, hc', hbuckets, hsplit, -⟩ := ha.found hfind
          obtain ⟨cache, newer, older, block, first, rest, heject, -, -, -, -, ha'⟩ :=
            ha.eject hc' hbuckets (hb.symm ▸ hsplit)
          obtain ⟨c', hrun, hr', rfl⟩ := hr.eject ((ha.members i).mpr hlt) heject
          refine ⟨(0, (c.slots i).block), c', ?_, ⟨_, _, hr', ha'⟩, ?_⟩
          · simp only [if_neg hsize, hhit, hrun, Option.bind_eq_bind, Option.bind_some,
              Option.pure_def]
          · rw [whole_iff hr' ha', Cache.whole_eject hc hw₀ hlt heject]
            constructor
            · intro hno j hj
              obtain rfl := Option.some.inj (Option.some.inj (hhit.symm.trans hj))
              exact hno
            · intro hspares
              exact hspares i hhit

end Btcache

theorem Btcache.whole_nil {c : Btcache K} {n : ℕ} {v : BlockView K} (h : c.Arranged n v)
    (hnone : v.entries = []) : c.Whole := by
  obtain ⟨ring, -, ha⟩ := h
  obtain ⟨occupied, free, hring, hview, hfree⟩ := ha.view
  rw [hnone, List.map_nil, List.map_eq_nil_iff] at hview
  subst hview
  intro i hlt hblock
  have hmem : i ∈ free := by
    have hin := (ha.members i).mpr hlt
    rw [hring] at hin
    exact hin
  have hempty : (c.slots i).block = none := hfree i hmem
  rw [hempty] at hblock
  cases hblock

/-- No block is lost in a run exactly when no call takes one out of the first slot of others. -/
theorem btcacheRun_whole (n : ℕ) (hn : 0 < n) (calls : List (BtcacheCall K)) :
    (∀ before after, calls = before ++ after → ∀ rs c,
      runAll btcacheStep (Btcache.open n true true) before = some (rs, c) → c.Whole) ↔
    Meets btcacheStep Btcache.Spares (Btcache.open n true true) calls := by
  have hopen := Btcache.arranged_open (K := K) hn
  exact runAll_always_iff (fun c => ∃ v, c.Arranged n v) Btcache.Whole
    (fun c call ⟨v, h⟩ hw _ => Btcache.whole_step h hw call) ⟨_, hopen⟩
    (Btcache.whole_nil hopen rfl) (meets_of_forall fun _ _ _ => trivial)

/-- Two blocks in buckets of their own, and one of them looked up. -/
theorem btcacheRun_whole_two :
    let block : Page ℕ := ⟨0, 2, .twig ⟨[], 0⟩⟩
    let calls := [.add true 2 block, .add true 3 block, .lookup 2]
    0 < 2 ∧ ∀ before after, calls = before ++ after →
      ∀ rs c, runAll btcacheStep (Btcache.open 2 true true) before = some (rs, c) → c.Whole := by
  intro block calls
  refine ⟨by decide, (btcacheRun_whole 2 (by decide) calls).mpr ⟨?_, ?_⟩⟩
  · intro head hhead _ hblock
    obtain rfl : 0 = head := Option.some.inj hhead
    cases hblock
  · rintro r c ⟨⟩
    refine ⟨?_, ?_⟩
    · intro head hhead _ _ hmore
      obtain rfl : 0 = head := Option.some.inj hhead
      exact hmore.2 rfl
    · rintro r c ⟨⟩
      refine ⟨fun i hhit hmore => ?_, fun _ _ _ => trivial⟩
      have hfound : some (some i) = some (some 0) := hhit.symm.trans (by decide)
      obtain rfl := Option.some.inj (Option.some.inj hfound)
      exact hmore.2 rfl

/-- Two blocks in one bucket: the one added first is lost when the other one is looked up. -/
theorem btcacheRun_whole_lost :
    let block : Page ℕ := ⟨0, 2, .twig ⟨[], 0⟩⟩
    ∃ rs c, runAll btcacheStep (Btcache.open 2 true true)
        [.add true 2 block, .add true 4 block, .lookup 4] = some (rs, c) ∧ ¬ c.Whole := by
  intro block
  have hslot : (runAll btcacheStep (Btcache.open 2 true true)
      [.add true 2 block, .add true 4 block, .lookup 4]).map (fun x =>
        (x.2.used, (x.2.slots 0).blocknr, (x.2.slots 0).block.isSome,
          (x.2.lookup 2).map fun r => r.1.isSome)) = some (2, 2, true, some false) := by
    decide
  obtain ⟨x, hrun, hx⟩ := Option.map_eq_some_iff.mp hslot
  simp only [Prod.mk.injEq] at hx
  obtain ⟨hused, hblocknr, hblock, hmiss⟩ := hx
  refine ⟨x.1, x.2, hrun, ?_⟩
  intro hw
  obtain ⟨-, found, c', hlookup⟩ := hw 0 (by omega) hblock
  rw [hblocknr] at hlookup
  rw [hlookup] at hmiss
  cases hmiss

end Carthage
