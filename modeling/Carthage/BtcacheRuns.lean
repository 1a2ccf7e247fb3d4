import Carthage.Btcache
import Carthage.Runs

/-!
# Runs of the block cache

The ring lists the slots that hold a block, the latest first, and then the free ones. Over any
run of additions and lookups a block is held by the cache, or was returned by a lookup, or
was freed to make room, which happens to the oldest block of a full cache only. A lookup returns
the latest block of its number that can be found from the bucket.
-/

open scoped List

namespace Carthage

variable {K : Type}

inductive BtcacheCall (K : Type)
  | add (granted : Bool) (blocknr : ℕ) (block : Page K)
  | lookup (blocknr : ℕ)

/-- The result of a call, 0 for a lookup, with the block that an addition frees or that a lookup
returns. -/
def btcacheStep (c : Btcache K) : BtcacheCall K → Option ((ℤ × Option (Page K)) × Btcache K)
  | .add granted blocknr block => do
      let (rc, freed, c) ← c.add granted blocknr block
      return ((rc, freed), c)
  | .lookup blocknr => do
      let (block, c) ← c.lookup blocknr
      return ((0, block), c)

/-- What a cache holds: the blocks with their numbers, the latest first, and those that are found
from each bucket, in the order of its chain. -/
structure BlockView (K : Type) where
  entries : List (ℕ × Page K)
  buckets : ℕ → List (ℕ × Page K)

def BlockView.push (n : ℕ) (v : BlockView K) (b : ℕ) (block : Page K) : BlockView K where
  entries := (b, block) :: v.entries
  buckets := Function.update v.buckets (b % n) ((b, block) :: v.buckets (b % n))

/-- The buckets when a block goes that may have been lost before. -/
inductive Unlinks (n : ℕ) (buckets : ℕ → List (ℕ × Page K)) (e : ℕ × Page K) :
    (ℕ → List (ℕ × Page K)) → Prop
  | lost : Unlinks n buckets e buckets
  | found {before behind : List (ℕ × Page K)} : buckets (e.1 % n) = before ++ e :: behind →
      Unlinks n buckets e (Function.update buckets (e.1 % n) (Cache.cut before behind))

/-- What a call may do to what a cache of size `n` holds. -/
inductive BlockStep (n : ℕ) :
    BlockView K → BtcacheCall K × ℤ × Option (Page K) → BlockView K → Prop
  | add {v : BlockView K} {granted : Bool} {b : ℕ} {block : Page K} : v.entries.length < n →
      BlockStep n v (.add granted b block, 0, none) (v.push n b block)
  | evict {v : BlockView K} {kept : List (ℕ × Page K)} {buckets : ℕ → List (ℕ × Page K)}
      {oldest : ℕ × Page K} {granted : Bool} {b : ℕ} {block : Page K} :
      v.entries = kept ++ [oldest] → v.entries.length = n → Unlinks n v.buckets oldest buckets →
      BlockStep n v (.add granted b block, 0, some oldest.2)
        (BlockView.push n ⟨kept, buckets⟩ b block)
  | refused {v : BlockView K} {b : ℕ} {block : Page K} :
      v.entries.length < n → BlockStep n v (.add false b block, 1, none) v
  | hit {v : BlockView K} {newer older before behind : List (ℕ × Page K)} {b : ℕ}
      {block : Page K} : v.entries = newer ++ (b, block) :: older →
      v.buckets (b % n) = before ++ (b, block) :: behind → (∀ e ∈ before, e.1 ≠ b) →
      BlockStep n v (.lookup b, 0, some block)
        ⟨newer ++ older, Function.update v.buckets (b % n) (Cache.cut before behind)⟩
  | miss {v : BlockView K} {b : ℕ} : (∀ e ∈ v.buckets (b % n), e.1 ≠ b) →
      BlockStep n v (.lookup b, 0, none) v

namespace Cache

variable {c c' : Cache K} {n i b : ℕ} {v : BlockView K} {entries : List (ℕ × Page K)}
  {page : Page K} {ring : List ℕ} {chain : ℕ → List ℕ}

/-- The number and the block of a slot. -/
def entry (c : Cache K) (i : ℕ) : ℕ × Option (Page K) := ((c.slots i).blocknr, (c.slots i).block)

def held (e : ℕ × Page K) : ℕ × Option (Page K) := (e.1, some e.2)

/-- The ring lists the slots with these entries, and then free slots, and the chains those of the
buckets. -/
structure Arranged (n : ℕ) (c : Cache K) (v : BlockView K) : Prop where
  size : c.size = n
  chains : ∃ chain, Chains c chain ∧ ∀ k, (chain k).map c.entry = (v.buckets k).map held
  nodup : c.ring.Nodup
  members : ∀ i, i ∈ c.ring ↔ i < c.used
  used : c.used ≤ n
  view : ∃ occupied free, c.ring = occupied ++ free ∧
    occupied.map c.entry = v.entries.map held ∧ ∀ i ∈ free, (c.slots i).block = none

namespace Arranged

theorem length_ring (h : Arranged n c v) : c.ring.length = c.used := by
  have hperm : c.ring.Perm (List.range c.used) := by
    rw [List.perm_ext_iff_of_nodup h.nodup List.nodup_range]
    intro i
    rw [h.members, List.mem_range]
  rw [hperm.length_eq, List.length_range]

end Arranged

theorem SameBlocks.entry (h : SameBlocks { c with ring := ring } c') (i : ℕ) :
    c'.entry i = c.entry i := by
  unfold Cache.entry
  rw [h.blocknr, h.block]

theorem entry_link (hi : i ≠ b) (page : Page K) {d : ℕ} :
    (c.link b d (some page)).entry i = c.entry i := by
  unfold Cache.entry Cache.link
  simp only [Function.update_of_ne hi]

theorem entry_link_self (d : ℕ) : (c.link i d (some page)).entry i = (d, some page) := by
  unfold Cache.entry Cache.link
  simp only [Function.update_self]

theorem Arranged.linked (occupied free : List ℕ) (hc : Chains c chain)
    (hbuckets : ∀ k, (chain k).map c.entry = (v.buckets k).map held)
    (hsize : c.size = n) (hno : ∀ b', i ∉ chain b') (hi : i < c.used)
    (hnd : (i :: (occupied ++ free)).Nodup) (hring : c.ring = i :: (occupied ++ free))
    (hmem : ∀ j, j ∈ c.ring ↔ j < c.used) (hused : c.used ≤ n)
    (hview : occupied.map c.entry = v.entries.map held)
    (hfree : ∀ j ∈ free, (c.slots j).block = none) :
    Arranged n (c.link i b (some page)) (v.push n b page) := by
  obtain ⟨hnot, -⟩ := List.nodup_cons.mp hnd
  have hothers : ∀ ls : List ℕ, i ∉ ls →
      ls.map (c.link i b (some page)).entry = ls.map c.entry := fun ls hls =>
    List.map_congr_left fun j hj => entry_link (fun hji : j = i => hls (hji ▸ hj)) page
  have hhash : c.hashOf b = b % n := by rw [Cache.hashOf, hsize]
  refine ⟨hsize, ⟨_, hc.link hno hi b page, fun k => ?_⟩, ?_, hmem, hused, i :: occupied, free,
    hring, ?_, ?_⟩
  · rw [hhash]
    unfold BlockView.push
    simp only
    by_cases hk : k = b % n
    · subst hk
      rw [Function.update_self, Function.update_self, List.map_cons, entry_link_self,
        hothers _ (hno _), hbuckets]
      rfl
    · rw [Function.update_of_ne hk, Function.update_of_ne hk, hothers _ (hno _), hbuckets]
  · change c.ring.Nodup
    rw [hring]
    exact hnd
  · rw [List.map_cons, entry_link_self,
      hothers _ fun hin => hnot (List.mem_append_left _ hin), hview]
    rfl
  · intro j hj
    have hji : j ≠ i := by
      rintro rfl
      exact hnot (List.mem_append_right _ hj)
    have hentry := congrArg Prod.snd (entry_link (c := c) (d := b) hji page)
    exact hentry.trans (hfree j hj)

theorem isSome_of_view {occupied : List ℕ} (hview : occupied.map c.entry = entries.map held)
    (hi : i ∈ occupied) :
    ∃ e ∈ entries, (c.slots i).blocknr = e.1 ∧ (c.slots i).block = some e.2 := by
  have hmem : c.entry i ∈ entries.map held := hview ▸ List.mem_map_of_mem hi
  obtain ⟨e, he, heq⟩ := List.mem_map.mp hmem
  have hfst := congrArg Prod.fst heq
  have hsnd := congrArg Prod.snd heq
  exact ⟨e, he, hfst.symm, hsnd.symm⟩

theorem growing_eq {first : ℕ} {rest : List ℕ} (hring : c.ring = first :: rest) :
    c.growing = ((c.slots first).block.isSome && decide (c.used < c.size)) := by
  unfold Cache.growing
  rw [hring]
  rfl

theorem split_of_view {before behind : List ℕ}
    (hview : (before ++ i :: behind).map c.entry = entries.map held) :
    ∃ newer block older, entries = newer ++ ((c.slots i).blocknr, block) :: older ∧
      (c.slots i).block = some block ∧ before.map c.entry = newer.map held ∧
      behind.map c.entry = older.map held := by
  rw [List.map_append, List.map_cons] at hview
  obtain ⟨newer, l, rfl, hnewer, hl⟩ := List.map_eq_append_iff.mp hview.symm
  obtain ⟨⟨b, block⟩, older, rfl, he, holder⟩ := List.map_eq_cons_iff.mp hl
  obtain ⟨rfl, hblock⟩ := Prod.mk.inj he
  exact ⟨newer, block, older, rfl, hblock.symm, hnewer.symm, holder.symm⟩

theorem Chains.buckets_cut (h : Chains c chain)
    (hbuckets : ∀ k, (chain k).map c.entry = (v.buckets k).map held) {before behind : List ℕ}
    (hsplit : chain (c.hashOf (c.slots i).blocknr) = before ++ i :: behind) :
    ∃ newer block older, v.buckets (c.hashOf (c.slots i).blocknr) =
        newer ++ ((c.slots i).blocknr, block) :: older ∧ (c.slots i).block = some block ∧
      before.map c.entry = newer.map held ∧
      ∀ k, (c.unlinked chain i k).map c.entry =
        (Function.update v.buckets (c.hashOf (c.slots i).blocknr) (cut newer older) k).map held := by
  obtain ⟨newer, block, older, heq, hblock, hnewer, holder⟩ :=
    split_of_view (hsplit ▸ hbuckets (c.hashOf (c.slots i).blocknr))
  refine ⟨newer, block, older, heq, hblock, hnewer, fun k => ?_⟩
  rw [h.unlinked_of_split hsplit]
  by_cases hk : k = c.hashOf (c.slots i).blocknr
  · subst hk
    rw [Function.update_self, Function.update_self, map_cut, map_cut, hnewer, holder]
  · rw [Function.update_of_ne hk, Function.update_of_ne hk, hbuckets]

theorem Chains.unlinks (h : Chains c chain) (hsize : c.size = n)
    (hbuckets : ∀ k, (chain k).map c.entry = (v.buckets k).map held)
    (hblock : (c.slots i).block = some page) :
    ∃ buckets, Unlinks n v.buckets ((c.slots i).blocknr, page) buckets ∧
      ∀ k, (c.unlinked chain i k).map c.entry = (buckets k).map held := by
  have hhash : ∀ b, c.hashOf b = b % n := fun b => by rw [Cache.hashOf, hsize]
  by_cases hmem : i ∈ chain (c.hashOf (c.slots i).blocknr)
  · obtain ⟨before, behind, hsplit⟩ := List.append_of_mem hmem
    obtain ⟨newer, block, older, heq, hblock', -, hcut⟩ := h.buckets_cut hbuckets hsplit
    obtain rfl := Option.some.inj (hblock.symm.trans hblock')
    rw [hhash] at heq hcut
    exact ⟨_, .found heq, hcut⟩
  · refine ⟨v.buckets, .lost, fun k => ?_⟩
    rw [h.unlinked_of_notMem hmem, hbuckets]

/-- An addition takes a new slot, a free one, or that of the oldest block. -/
theorem Arranged.add (h : Arranged n c v) (b : ℕ) (page : Page K) :
    ∃ c' v', c.add b (some page) = some c' ∧ Arranged n c' v' ∧
      (c.growing = true → v.entries.length < n) ∧
      ∀ granted, BlockStep n v (.add granted b page, 0, c.evicted) v' := by
  obtain ⟨chain, hc, hbuckets⟩ := h.chains
  obtain ⟨occupied, free, hring, hview, hfree⟩ := h.view
  have hnd := h.nodup
  have hlen := h.length_ring
  have hused := h.used
  have hcount : occupied.length = v.entries.length := by simpa using congrArg List.length hview
  rw [hring, List.length_append] at hlen
  obtain ⟨i, c₁, chain₁, hrun, hc₁, hno, hi, hcases⟩ := hc.add b page
  rcases hcases with ⟨hgrow, rfl, rfl, rfl⟩ | ⟨hgrow, hlast, hsame, hchain⟩
  · -- A new slot.
    have hroom : c.used < n := by
      obtain ⟨first, rest, hfirst⟩ := List.exists_cons_of_ne_nil hc.ring
      rw [growing_eq hfirst, Bool.and_eq_true, decide_eq_true_eq, h.size] at hgrow
      exact hgrow.2
    have hnew : c.used ∉ c.ring := by
      rw [h.members]
      exact Nat.lt_irrefl _
    refine ⟨_, v.push n b page, hrun, ?_, fun _ => by omega, fun granted => ?_⟩
    · apply Arranged.linked occupied free hc₁ hbuckets h.size hno hi
      · rw [← hring]
        exact List.nodup_cons.mpr ⟨hnew, hnd⟩
      · change c.used :: c.ring = _
        rw [hring]
      · intro j
        rw [List.mem_cons, h.members, Nat.lt_succ_iff_lt_or_eq, or_comm]
      · exact hroom
      · exact hview
      · exact hfree
    · have hnone : c.evicted = none := by
        unfold Cache.evicted
        rw [if_pos hgrow]
      rw [hnone]
      exact BlockStep.add (by omega)
  · have hevicted : c.evicted = (c.slots i).block := by
      unfold Cache.evicted
      rw [hgrow, hlast]
      rfl
    obtain ⟨init, hinit⟩ := List.getLast?_eq_some_iff.mp hlast
    have hring₁ : c₁.ring = i :: init := by
      rw [hsame.ring, hinit, List.dropLast_concat]
    have hnd₁ : (i :: init).Nodup := by
      rw [hinit] at hnd
      exact (List.perm_append_singleton i init).nodup_iff.mp hnd
    have hmem₁ : ∀ j, j ∈ c₁.ring ↔ j < c₁.used := by
      intro j
      rw [hsame.used, ← h.members, hring₁, hinit, List.mem_append, List.mem_singleton,
        List.mem_cons, or_comm]
    have hview₁ : ∀ ls : List ℕ, ls.map c₁.entry = ls.map c.entry := fun ls =>
      List.map_congr_left fun j _ => hsame.entry j
    have hused₁ : c₁.used ≤ n := hsame.used ▸ hused
    have hsize₁ : c₁.size = n := hsame.size.trans h.size
    rcases List.eq_nil_or_concat free with rfl | ⟨free', j, rfl⟩
    · -- The oldest block has to go.
      rw [List.append_nil] at hring
      obtain rfl : occupied = init ++ [i] := hring.symm.trans hinit
      obtain ⟨E, block, older, hentries, hblock, hE, hnil⟩ := split_of_view hview
      obtain rfl : older = [] := List.map_eq_nil_iff.mp hnil.symm
      have hfull : v.entries.length = n := by
        obtain ⟨first, rest, hfirst⟩ := List.exists_cons_of_ne_nil hc.ring
        have hmem : first ∈ init ++ [i] := by
          rw [← hring, hfirst]
          exact List.mem_cons_self
        obtain ⟨e, -, -, hsome⟩ := isSome_of_view hview hmem
        rw [growing_eq hfirst, hsome, h.size] at hgrow
        simp only [Option.isSome_some, Bool.true_and, decide_eq_false_iff_not] at hgrow
        rw [List.length_nil] at hlen
        omega
      rw [if_pos (Option.isSome_iff_exists.mpr ⟨block, hblock⟩)] at hchain
      obtain ⟨buckets, hunlinks, hbuckets'⟩ := hc.unlinks h.size hbuckets hblock
      have hbuckets₁ : ∀ k, (chain₁ k).map c₁.entry = (buckets k).map held := fun k => by
        rw [hview₁, hchain, hbuckets']
      refine ⟨_, BlockView.push n ⟨E, buckets⟩ b page, hrun, ?_, fun hg => ?_, fun granted => ?_⟩
      · apply Arranged.linked init [] hc₁ hbuckets₁ hsize₁ hno hi
        · rw [List.append_nil]
          exact hnd₁
        · rw [List.append_nil]
          exact hring₁
        · exact hmem₁
        · exact hused₁
        · rw [hview₁]
          exact hE
        · exact fun _ hj => (nomatch hj)
      · rw [hgrow] at hg
        cases hg
      · rw [hevicted, hblock]
        exact BlockStep.evict hentries hfull hunlinks
    · -- A free slot.
      rw [List.concat_eq_append] at *
      have hboth : occupied ++ free' ++ [j] = init ++ [i] := by
        rw [List.append_assoc, ← hring, hinit]
      obtain ⟨rfl, hji⟩ := List.append_inj' hboth rfl
      obtain rfl : j = i := by simpa using hji
      have hblock : (c.slots j).block = none := hfree j (by simp)
      rw [List.length_append, List.length_singleton] at hlen
      rw [if_neg (by simp [hblock])] at hchain
      have hbuckets₁ : ∀ k, (chain₁ k).map c₁.entry = (v.buckets k).map held := fun k => by
        rw [hview₁, hchain, hbuckets]
      refine ⟨_, v.push n b page, hrun, ?_, fun hg => ?_, fun granted => ?_⟩
      · apply Arranged.linked occupied free' hc₁ hbuckets₁ hsize₁ hno hi
        · exact hnd₁
        · exact hring₁
        · exact hmem₁
        · exact hused₁
        · rw [hview₁]
          exact hview
        · intro u hu
          rw [hsame.block]
          exact hfree u (List.mem_append_left _ hu)
      · rw [hgrow] at hg
        cases hg
      · rw [hevicted, hblock]
        exact BlockStep.add (by omega)

theorem Arranged.find (h : Arranged n c v) (b : ℕ) :
    ∃ chain, (Chains c chain ∧ ∀ k, (chain k).map c.entry = (v.buckets k).map held) ∧
      c.find b (c.used + 1) (c.table (c.hashOf b)) =
        some ((chain (c.hashOf b)).find? fun i => (c.slots i).blocknr = b) := by
  obtain ⟨chain, hc, hbuckets⟩ := h.chains
  have hlen := (hc.length_le (c.hashOf b)).trans (Nat.le_succ _)
  exact ⟨chain, ⟨hc, hbuckets⟩, find_chain (hc.linked (c.hashOf b)) hlen b⟩

theorem Arranged.found (h : Arranged n c v)
    (hfind : c.find b (c.used + 1) (c.table (c.hashOf b)) = some (some i)) :
    i < c.used ∧ (c.slots i).blocknr = b ∧ (c.slots i).block.isSome ∧
      ∃ chain before behind, Chains c chain ∧
        (∀ k, (chain k).map c.entry = (v.buckets k).map held) ∧
        chain (c.hashOf b) = before ++ i :: behind ∧ ∀ j ∈ before, (c.slots j).blocknr ≠ b := by
  obtain ⟨chain, ⟨hc, hbuckets⟩, hfirst⟩ := h.find b
  rw [hfirst, Option.some.injEq, List.find?_eq_some_iff_append] at hfind
  obtain ⟨hb, before, behind, hsplit, hothers⟩ := hfind
  have hmem : i ∈ chain (c.hashOf b) := by
    rw [hsplit]
    exact List.mem_append_right _ List.mem_cons_self
  obtain ⟨hlt, -, hblock⟩ := hc.member _ i hmem
  exact ⟨hlt, by simpa using hb, hblock, chain, before, behind, hc, hbuckets, hsplit,
    fun j hj => by simpa using hothers j hj⟩

theorem Arranged.missed (h : Arranged n c v)
    (hfind : c.find b (c.used + 1) (c.table (c.hashOf b)) = some none) :
    ∀ e ∈ v.buckets (c.hashOf b), e.1 ≠ b := by
  obtain ⟨chain, ⟨-, hbuckets⟩, hfirst⟩ := h.find b
  rw [hfirst, Option.some.injEq, List.find?_eq_none] at hfind
  intro e he heq
  have hmem : held e ∈ (chain (c.hashOf b)).map c.entry := by
    rw [hbuckets]
    exact List.mem_map_of_mem he
  obtain ⟨i, hi, hentry⟩ := List.mem_map.mp hmem
  have hnumber : (c.slots i).blocknr = e.1 := congrArg Prod.fst hentry
  exact hfind i hi (by simpa using hnumber.trans heq)

theorem Arranged.find_total (h : Arranged n c v) (b : ℕ) :
    ∃ r, c.find b (c.used + 1) (c.table (c.hashOf b)) = some r := by
  obtain ⟨chain, -, hfind⟩ := h.find b
  exact ⟨_, hfind⟩

/-- A slot that loses its block becomes the last free one. -/
theorem Arranged.eject (h : Arranged n c v) (hc : Chains c chain)
    (hbuckets : ∀ k, (chain k).map c.entry = (v.buckets k).map held) {before behind : List ℕ}
    (hsplit : chain (c.hashOf (c.slots i).blocknr) = before ++ i :: behind) :
    ∃ c' newer older block first rest, c.eject i = some c' ∧
      v.entries = newer ++ ((c.slots i).blocknr, block) :: older ∧
      (c.slots i).block = some block ∧
      v.buckets ((c.slots i).blocknr % n) = first ++ ((c.slots i).blocknr, block) :: rest ∧
      before.map c.entry = first.map held ∧
      Arranged n c' ⟨newer ++ older,
        Function.update v.buckets ((c.slots i).blocknr % n) (cut first rest)⟩ := by
  have hhash : c.hashOf (c.slots i).blocknr = (c.slots i).blocknr % n := by
    rw [Cache.hashOf, h.size]
  obtain ⟨first, block, rest, hbucket, hblock, hfirst, hcut⟩ := hc.buckets_cut hbuckets hsplit
  obtain ⟨occupied, free, hring, hview, hfree⟩ := h.view
  have hchain : i ∈ chain (c.hashOf (c.slots i).blocknr) := by
    rw [hsplit]
    exact List.mem_append_right _ List.mem_cons_self
  have hi : i < c.used := (hc.member _ i hchain).1
  obtain ⟨c₁, hrun, hsame, hc₁⟩ := hc.eject hi
  have hsame₁ : SameBlocks { c with ring := c.ring } c₁ := hsame
  have hmem : i ∈ occupied := by
    have hin := (h.members i).mpr hi
    rw [hring] at hin
    rcases List.mem_append.mp hin with hin | hin
    · exact hin
    · rw [hfree i hin] at hblock
      cases hblock
  obtain ⟨A, B, rfl, hA⟩ := List.eq_append_cons_of_mem hmem
  obtain ⟨newer, block', older, hentries, hblock', hnewer, holder⟩ := split_of_view hview
  obtain rfl := Option.some.inj (hblock.symm.trans hblock')
  have hnd : (i :: (A ++ B ++ free)).Nodup := by
    have hnd := h.nodup
    rw [hring, List.append_assoc, List.cons_append, List.nodup_middle, ← List.append_assoc] at hnd
    exact hnd
  obtain ⟨hnot, hrest⟩ := List.nodup_cons.mp hnd
  have hring₁ : (c₁.vacated i).ring = (A ++ B) ++ (free ++ [i]) := by
    change c₁.ring.erase i ++ [i] = _
    rw [hsame.ring, hring, List.append_assoc, List.cons_append, List.erase_append_right _ hA,
      List.erase_cons_head]
    simp
  have hslot : ∀ j, j ≠ i → (c₁.vacated i).entry j = c.entry j := by
    intro j hj
    rw [← hsame₁.entry j]
    unfold Cache.entry vacated
    simp only [Function.update_of_ne hj]
  have hothers : ∀ ls : List ℕ, i ∉ ls → ls.map (c₁.vacated i).entry = ls.map c.entry :=
    fun ls hls => List.map_congr_left fun j hj => hslot j fun hji => hls (hji ▸ hj)
  refine ⟨c₁.vacated i, newer, older, block, first, rest, hrun, hentries, hblock, hhash ▸ hbucket,
    hfirst, ?_⟩
  refine ⟨hsame.size.trans h.size, ⟨_, hc₁, fun k => ?_⟩, ?_, ?_, ?_, A ++ B, free ++ [i], hring₁,
    ?_, ?_⟩
  · rw [hothers, hcut, hhash]
    exact fun hin => ((hc.mem_unlinked i i).mp hin).2.1 rfl
  · rw [hring₁, ← List.append_assoc]
    exact (List.perm_append_singleton i _).nodup_iff.mpr hnd
  · intro j
    change _ ↔ j < c₁.used
    rw [hsame.used, ← h.members, hring₁, hring]
    simp only [List.mem_append, List.mem_cons, List.not_mem_nil, or_false]
    tauto
  · change c₁.used ≤ n
    rw [hsame.used]
    exact h.used
  · rw [List.map_append, List.map_append, ← hnewer, ← holder, hothers A hA, hothers B]
    intro hB
    exact hnot (List.mem_append_left _ (List.mem_append_right _ hB))
  · intro j hj
    by_cases hji : j = i
    · subst hji
      unfold vacated
      simp only [Function.update_self]
    · rcases List.mem_append.mp hj with hj | hj
      · exact (congrArg Prod.snd (hslot j hji)).trans (hfree j hj)
      · exact absurd (List.mem_singleton.mp hj) hji

theorem Arranged.lookup (h : Arranged n c v) (b : ℕ) :
    ∃ block c' v', c.lookup b = some (block, c') ∧ Arranged n c' v' ∧
      BlockStep n v (.lookup b, 0, block) v' := by
  have hhash : c.hashOf b = b % n := by rw [Cache.hashOf, h.size]
  obtain ⟨chain, hc, -⟩ := h.chains
  unfold Cache.lookup
  rw [if_neg hc.size]
  obtain ⟨r, hfind⟩ := h.find_total b
  cases r with
  | none =>
      refine ⟨none, c, v, ?_, h, .miss (hhash ▸ h.missed hfind)⟩
      simp only [hfind, Option.bind_eq_bind, Option.bind_some, Option.pure_def]
  | some i =>
      obtain ⟨-, rfl, -, chain, before, behind, hc, hbuckets, hsplit, hothers⟩ := h.found hfind
      obtain ⟨c', newer, older, block, first, rest, hrun, hentries, hsome, hbucket, hfirst, h'⟩ :=
        h.eject hc hbuckets hsplit
      refine ⟨some block, c', _, ?_, h', .hit hentries hbucket fun e he heq => ?_⟩
      · simp only [hfind, hrun, hsome, Option.bind_eq_bind, Option.bind_some, Option.pure_def]
      · have hmem : held e ∈ before.map c.entry := by
          rw [hfirst]
          exact List.mem_map_of_mem he
        obtain ⟨j, hj, hentry⟩ := List.mem_map.mp hmem
        exact hothers j hj ((congrArg Prod.fst hentry).trans heq)

end Cache

namespace Btcache

variable {c c' : Btcache K} {n : ℕ} {v : BlockView K}

/-- The ring, followed from the head, lists the slots with these entries and then free slots. -/
def Arranged (n : ℕ) (c : Btcache K) (v : BlockView K) : Prop :=
  ∃ ring, c.Rings ring ∧ (c.flat ring).Arranged n v

theorem Arranged.step (h : c.Arranged n v) (call : BtcacheCall K) :
    ∃ r c' v', btcacheStep c call = some (r, c') ∧ BlockStep n v (call, r) v' ∧
      c'.Arranged n v' := by
  obtain ⟨ring, hr, h⟩ := h
  cases call with
  | add granted b block =>
      obtain ⟨chain, hc, -⟩ := h.chains
      obtain ⟨cache, v', hadd, h', hroom, hstep⟩ := h.add b block
      have hused : c.used ∉ ring := by
        have hmem := h.members c.used
        exact fun hin => (Nat.lt_irrefl _) (hmem.mp hin)
      unfold btcacheStep
      rcases hr.add granted hc.ring hused hadd with ⟨hgrow, rfl, hrun⟩ | ⟨c', ring', hrun, hr', rfl⟩
      · refine ⟨(1, none), c, v, ?_, .refused (hroom hgrow), ring, hr, h⟩
        simp only [hrun, Option.bind_eq_bind, Option.bind_some, Option.pure_def]
      · refine ⟨_, c', v', ?_, hstep granted, ring', hr', h'⟩
        simp only [hrun, Option.bind_eq_bind, Option.bind_some, Option.pure_def]
  | lookup b =>
      obtain ⟨block, cache, v', hlookup, h', hstep⟩ := h.lookup b
      have hmem : ∀ i, c.hit b = some (some i) → i ∈ ring := by
        intro i hhit
        apply (h.members i).mpr
        have hfind : (c.flat ring).find b (c.used + 1) (c.table (c.hashOf b)) = some (some i) := by
          rw [flat_find]
          exact hhit
        exact (h.found hfind).1
      obtain ⟨c', ring', hrun, hr', rfl⟩ := hr.lookup hmem hlookup
      refine ⟨_, c', v', ?_, hstep, ring', hr', h'⟩
      unfold btcacheStep
      simp only [hrun, Option.bind_eq_bind, Option.bind_some, Option.pure_def]

theorem arranged_open (hn : 0 < n) : (Btcache.open n true true : Btcache K).Arranged n ⟨[], fun _ => []⟩ := by
  have hopen : (Btcache.open n true true : Btcache K) =
      (addNode ⟨n, 0, none, id, id, fun _ => ⟨none, 0, none⟩, fun _ => none⟩ true).2 := by
    unfold Btcache.open
    simp [hn.ne']
  have hslots : ∀ i, ((Btcache.open n true true : Btcache K).slots i).block = none := by
    intro i
    rw [hopen]
    unfold addNode
    simp only [if_true]
    by_cases hi : i = 0
    · subst hi
      rfl
    · rw [Function.update_of_ne hi]
  rw [hopen] at hslots ⊢
  refine ⟨[0], ⟨Circle.single rfl rfl, rfl⟩, rfl, ⟨fun _ => [], ?_, fun _ => rfl⟩, List.nodup_singleton 0, ?_, hn,
    [], [0], rfl, rfl, fun i _ => hslots i⟩
  · refine ⟨hn.ne', List.cons_ne_nil _ _, ?_, fun _ => rfl, fun _ => List.nodup_nil, ?_⟩
    · intro i hi
      rw [List.mem_singleton.mp hi]
      exact Nat.zero_lt_one
    · exact fun _ _ hi => (nomatch hi)
  · intro i
    exact List.mem_singleton.trans Nat.lt_one_iff.symm

theorem Arranged.lookup (h : c.Arranged n v) (b : ℕ) : ∃ r c', c.lookup b = some (r, c') ∧
    (r = none ↔ ∀ e ∈ v.buckets (b % n), e.1 ≠ b) ∧
    ∀ block, r = some block → (b, block) ∈ v.entries ∧ (b, block) ∈ v.buckets (b % n) := by
  obtain ⟨⟨rc, r⟩, c', v', hrun, hstep, -⟩ := h.step (.lookup b)
  have hlookup : c.lookup b = some (r, c') := by
    unfold btcacheStep at hrun
    cases hres : c.lookup b with
    | none => simp [hres] at hrun
    | some x =>
        have heq : (0 = rc ∧ x.1 = r) ∧ x.2 = c' := by simpa [hres, Prod.ext_iff] using hrun
        exact congrArg some (Prod.ext heq.1.2 heq.2)
  refine ⟨r, c', hlookup, ?_⟩
  cases hstep with
  | hit hentries hbucket hothers =>
      refine ⟨⟨fun hnone => (nomatch hnone), fun hno => ?_⟩, ?_⟩
      · exact absurd rfl (hno _ (hbucket ▸ List.mem_append_right _ List.mem_cons_self))
      · rintro block ⟨⟩
        exact ⟨hentries ▸ List.mem_append_right _ List.mem_cons_self,
          hbucket ▸ List.mem_append_right _ List.mem_cons_self⟩
  | miss hno => exact ⟨⟨fun _ => hno, fun _ => rfl⟩, fun block hsome => (nomatch hsome)⟩

end Btcache

/-! ## Runs -/

/-- The block that a call leaves to the cache. -/
def taken : BtcacheCall K × ℤ × Option (Page K) → Option (Page K)
  | (.add _ _ block, rc, _) => if rc = 0 then some block else none
  | (.lookup _, _) => none

theorem BlockStep.owned {n : ℕ} {v v' : BlockView K}
    {l : BtcacheCall K × ℤ × Option (Page K)} (h : BlockStep n v l v') :
    (v.entries.map Prod.snd ++ (taken l).toList).Perm
      (v'.entries.map Prod.snd ++ l.2.2.toList) := by
  cases h with
  | @add granted b block hroom =>
      have hgrown : (((b, block) :: v.entries).map Prod.snd ++ []).Perm
          (v.entries.map Prod.snd ++ [block]) := by
        rw [List.append_nil, List.map_cons]
        exact (List.perm_append_singleton _ _).symm
      exact hgrown.symm
  | @evict kept buckets oldest granted b block hentries hfull hunlinks =>
      have hturned : ([block] ++ (kept ++ [oldest]).map Prod.snd).Perm
          ((kept ++ [oldest]).map Prod.snd ++ [block]) := List.perm_append_comm
      rw [List.map_append, ← List.append_assoc] at hturned
      rw [hentries, List.map_append]
      exact hturned.symm
  | refused hroom => exact List.Perm.refl _
  | @hit newer older before behind b block hentries hbucket hothers =>
      have hmoved : ((newer ++ (b, block) :: older).map Prod.snd).Perm
          ((newer ++ older).map Prod.snd ++ [block]) := by
        rw [List.map_append, List.map_append, List.map_cons]
        exact List.perm_middle.trans (List.perm_append_singleton _ _).symm
      rw [show (taken (BtcacheCall.lookup b, (0 : ℤ), some block)).toList = [] from rfl,
        List.append_nil, hentries]
      exact hmoved
  | miss => exact List.Perm.refl _

theorem blockRun_owned {n : ℕ} {v v' : BlockView K}
    {ls : List (BtcacheCall K × ℤ × Option (Page K))} (h : Run (BlockStep n) v ls v') :
    (v.entries.map Prod.snd ++ ls.filterMap taken).Perm
      (v'.entries.map Prod.snd ++ ls.filterMap fun l => l.2.2) := by
  induction h with
  | nil => exact List.Perm.refl _
  | @cons s s' s'' l ls hstep _ ih =>
      have hone := hstep.owned
      have htaken : (l :: ls).filterMap taken = (taken l).toList ++ ls.filterMap taken := by
        rw [List.filterMap_cons]
        cases taken l <;> rfl
      have hback : ((l :: ls).filterMap fun l => l.2.2) =
          l.2.2.toList ++ ls.filterMap fun l => l.2.2 := by
        rw [List.filterMap_cons]
        cases l.2.2 <;> rfl
      rw [htaken, hback, ← List.append_assoc]
      calc s.entries.map Prod.snd ++ (taken l).toList ++ ls.filterMap taken
          _ ~ s'.entries.map Prod.snd ++ l.2.2.toList ++ ls.filterMap taken := hone.append_right _
          _ ~ l.2.2.toList ++ (s'.entries.map Prod.snd ++ ls.filterMap taken) := by
            rw [← List.append_assoc]
            exact List.perm_append_comm.append_right _
          _ ~ l.2.2.toList ++ (s''.entries.map Prod.snd ++ ls.filterMap fun l => l.2.2) := ih.append_left _
          _ ~ s''.entries.map Prod.snd ++ (l.2.2.toList ++ ls.filterMap fun l => l.2.2) := by
            rw [← List.append_assoc, ← List.append_assoc]
            exact List.perm_append_comm.append_right _

theorem filterMap_zip {calls : List (BtcacheCall K)} {rs : List (ℤ × Option (Page K))}
    (hlen : rs.length = calls.length) :
    ((calls.zip rs).filterMap fun l => l.2.2) = rs.filterMap Prod.snd := by
  induction calls generalizing rs with
  | nil =>
      obtain rfl := List.length_eq_zero_iff.mp hlen
      rfl
  | cons call calls ih =>
      cases rs with
      | nil => cases hlen
      | cons r rs =>
          have hrest := ih (Nat.succ.inj hlen)
          simp only [List.zip_cons_cons, List.filterMap_cons, hrest]

/-- Every run of the cache moves blocks as it should. -/
theorem btcacheRun_blocks (n : ℕ) (hn : 0 < n) (calls : List (BtcacheCall K)) :
    ∃ rs c v, runAll btcacheStep (Btcache.open n true true) calls = some (rs, c) ∧
      rs.length = calls.length ∧ Run (BlockStep n) ⟨[], fun _ => []⟩ (calls.zip rs) v ∧
      c.Arranged n v ∧
      (∀ b, ∃ r c', c.lookup b = some (r, c') ∧
        (r = none ↔ ∀ e ∈ v.buckets (b % n), e.1 ≠ b) ∧
        ∀ block, r = some block → (b, block) ∈ v.entries ∧ (b, block) ∈ v.buckets (b % n)) ∧
      ((calls.zip rs).filterMap taken).Perm (v.entries.map Prod.snd ++ rs.filterMap Prod.snd) := by
  have hcalls : Meets btcacheStep (fun _ _ => True) (Btcache.open n true true) calls :=
    meets_of_forall fun _ _ _ => trivial
  obtain ⟨rs, c, v, hrun, hlen, hspec, h⟩ := runAll_simulates
    (fun (c : Btcache K) v => c.Arranged n v) (BlockStep n)
    (fun c v call h _ => h.step call) (Btcache.arranged_open hn) hcalls
  refine ⟨rs, c, v, hrun, hlen, hspec, h, fun b => h.lookup b, ?_⟩
  have howned := blockRun_owned hspec
  rw [List.map_nil, List.nil_append, filterMap_zip hlen] at howned
  exact howned

/-- Three blocks in a cache of size 2: the first one has to go, and another one is looked up. -/
theorem btcacheRun_blocks_two :
    let block : Page ℕ := ⟨0, 2, .twig ⟨[], 0⟩⟩
    let calls := [.add true 5 block, .add true 6 block, .add true 7 block, .lookup 6, .lookup 5]
    ∃ rs c v, runAll btcacheStep (Btcache.open 2 true true) calls = some (rs, c) ∧
      rs.length = 5 ∧ Run (BlockStep 2) ⟨[], fun _ => []⟩ (calls.zip rs) v ∧ c.Arranged 2 v ∧
      (∀ b, ∃ r c', c.lookup b = some (r, c') ∧
        (r = none ↔ ∀ e ∈ v.buckets (b % 2), e.1 ≠ b) ∧
        ∀ block, r = some block → (b, block) ∈ v.entries ∧ (b, block) ∈ v.buckets (b % 2)) ∧
      ((calls.zip rs).filterMap taken).Perm (v.entries.map Prod.snd ++ rs.filterMap Prod.snd) := by
  intro block calls
  exact btcacheRun_blocks 2 Nat.two_pos calls

/-! ## Closing -/

namespace Btcache

variable {c : Btcache K} {n head p : ℕ} {v : BlockView K} {ring A B : List ℕ}

theorem Rings.closeLoop (hr : c.Rings (A ++ p :: B)) (hhead : (A ++ p :: B).head? = some head)
    {fuel : ℕ} (hfuel : B.length < fuel) : c.closeLoop head fuel p =
      some ((p :: B).filterMap fun i => (c.slots i).block, p :: B) := by
  obtain ⟨fuel, rfl⟩ := Nat.exists_eq_succ_of_ne_zero (Nat.ne_zero_of_lt hfuel)
  induction B generalizing A p fuel with
  | nil =>
      have hnext : c.next p = head := (hr.circle.ends hhead).1
      unfold Btcache.closeLoop
      rw [hnext, if_neg (not_not.mpr rfl)]
      cases hblock : (c.slots p).block <;> simp [hblock]
  | cons q B ih =>
      have hnext : c.next p = q := hr.circle.next_eq
      have hsplit : A ++ p :: q :: B = (A ++ [p]) ++ q :: B := by simp
      have hne : q ≠ head := by
        rintro rfl
        have hnd := hr.circle.nodup
        rw [hsplit] at hnd hhead
        have hin : q ∈ A ++ [p] := by
          apply List.mem_of_mem_head?
          rwa [List.head?_append_of_ne_nil _ (by simp)] at hhead
        exact List.disjoint_of_nodup_append hnd hin List.mem_cons_self
      obtain ⟨fuel, rfl⟩ := Nat.exists_eq_succ_of_ne_zero (by
        rw [List.length_cons] at hfuel
        omega : fuel ≠ 0)
      have hrest := ih (hsplit ▸ hr) (hsplit ▸ hhead) fuel (by
        rw [List.length_cons] at hfuel
        omega)
      unfold Btcache.closeLoop
      rw [hnext, if_pos hne, hrest]
      cases hblock : (c.slots p).block <;> simp [hblock]

theorem Arranged.close (h : c.Arranged n v) :
    ∃ nodes, c.close = some (v.entries.map Prod.snd, nodes) ∧ nodes.Perm (List.range c.used) := by
  obtain ⟨ring, hr, h⟩ := h
  obtain ⟨chain, hc, -⟩ := h.chains
  obtain ⟨occupied, free, hring, hview, hfree⟩ := h.view
  obtain ⟨head, rest, rfl⟩ := List.exists_cons_of_ne_nil hc.ring
  have hlen : (head :: rest).length = c.used := h.length_ring
  have hloop : c.closeLoop head (c.used + 1) head = _ :=
    Rings.closeLoop (A := []) hr rfl (by
      rw [List.length_cons] at hlen
      omega)
  have hperm : (head :: rest).Perm (List.range c.used) := by
    have hnd : (head :: rest).Nodup := h.nodup
    rw [List.perm_ext_iff_of_nodup hnd List.nodup_range]
    intro i
    rw [List.mem_range]
    exact h.members i
  have hblocks : (head :: rest).filterMap (fun i => (c.slots i).block) =
      v.entries.map Prod.snd := by
    have hheld := congrArg (List.filterMap Prod.snd) hview
    rw [List.filterMap_map, List.filterMap_map] at hheld
    have hnone : free.filterMap (fun i => (c.slots i).block) = [] :=
      List.filterMap_eq_nil_iff.mpr hfree
    have hsplit : head :: rest = occupied ++ free := hring
    rw [hsplit, List.filterMap_append, hnone, List.append_nil]
    refine hheld.trans ?_
    rw [← List.filterMap_eq_map]
    rfl
  refine ⟨head :: rest, ?_, hperm⟩
  have hsize : c.size ≠ 0 := hc.size
  have hhead : c.head = some head := hr.head
  rw [Btcache.close, if_neg hsize, hhead]
  simp only [hloop, hblocks]

end Btcache

/-- A cache that is closed frees each of its nodes once, and of the blocks that were left to it
exactly those that were neither returned nor freed before. -/
theorem btcacheRun_close (n : ℕ) (hn : 0 < n) (calls : List (BtcacheCall K)) :
    ∃ rs c blocks nodes,
      runAll btcacheStep (Btcache.open n true true) calls = some (rs, c) ∧
      c.close = some (blocks, nodes) ∧ nodes.Perm (List.range c.used) ∧ c.used ≤ n ∧
      ((calls.zip rs).filterMap taken).Perm (blocks ++ rs.filterMap Prod.snd) := by
  have hcalls : Meets btcacheStep (fun _ _ => True) (Btcache.open n true true) calls :=
    meets_of_forall fun _ _ _ => trivial
  obtain ⟨rs, c, v, hrun, hlen, hspec, h⟩ := runAll_simulates
    (fun (c : Btcache K) v => c.Arranged n v) (BlockStep n)
    (fun c v call h _ => h.step call) (Btcache.arranged_open hn) hcalls
  obtain ⟨nodes, hclose, hnodes⟩ := h.close
  obtain ⟨ring, -, hring⟩ := h
  have howned := blockRun_owned hspec
  rw [List.map_nil, List.nil_append, filterMap_zip hlen] at howned
  exact ⟨rs, c, _, nodes, hrun, hclose, hnodes, hring.used, howned⟩

/-- Two slots: the block that was added first is looked up, and the other one is still held. -/
theorem btcacheRun_close_two :
    let block : Page ℕ := ⟨0, 2, .twig ⟨[], 0⟩⟩
    let calls : List (BtcacheCall ℕ) := [.add true 5 block, .add true 6 block, .lookup 5]
    ∃ rs c blocks nodes, runAll btcacheStep (Btcache.open 2 true true) calls = some (rs, c) ∧
      c.close = some (blocks, nodes) ∧ nodes.Perm (List.range c.used) ∧ c.used ≤ 2 ∧
      ((calls.zip rs).filterMap taken).Perm (blocks ++ rs.filterMap Prod.snd) := by
  intro block calls
  exact btcacheRun_close 2 Nat.two_pos calls

end Carthage
