import Carthage.Hashtable

/-!
# Load and placement in a hash table

Whatever allocations fail, the number of buckets is a power of two, the table is not
fuller than an insertion allows, and every node is in the bucket of its key.
-/

namespace Carthage

namespace ChainTable

variable {K P E : Type} {ops : TableOps K P E} {t t' : ChainTable K P E} {L : List (K × P)}
  {key : K} {payload : P} {rc : ℤ} {a b : ℕ}

def Roomy (t : ChainTable K P E) : Prop := t.used ≤ t.size + t.size / 8 + 1

/-- The node `a` is in bucket `i`. -/
def InBucket (t : ChainTable K P E) (i a : ℕ) : Prop :=
  ∃ p as, t.bucket[i]? = some p ∧ t.Chain p as ∧ a ∈ as

/-! ## Counts -/

theorem store_counts {q : Option ℕ} {s : Slot} (h : t.store q s = some t') :
    t'.size = t.size ∧ t'.used = t.used := by
  cases s with
  | bucket i =>
      obtain ⟨-, h⟩ := Option.ite_none_right_eq_some.mp h
      cases h
      exact ⟨rfl, rfl⟩
  | next a =>
      obtain ⟨-, h⟩ := Option.ite_none_right_eq_some.mp h
      cases h
      exact ⟨rfl, rfl⟩

theorem nodeAlloc_counts {node : Option ℕ} (h : t.nodeAlloc ops key payload = some (node, t')) :
    t'.size = t.size ∧ t'.used = t.used := by
  unfold nodeAlloc at h
  cases hp : t.pool with
  | some a =>
      rw [hp] at h
      obtain ⟨n, -, h⟩ := Option.bind_eq_some_iff.mp h
      cases h
      exact ⟨rfl, rfl⟩
  | none =>
      rw [hp] at h
      unfold request at h
      by_cases hg : ops.granted t.requests = true
      · simp only [hg, if_true] at h
        cases h
        exact ⟨rfl, rfl⟩
      · simp only [hg] at h
        cases h
        exact ⟨rfl, rfl⟩

theorem nodeFree_counts (h : t.nodeFree ops a = some t') :
    t'.size = t.size ∧ t'.used = t.used := by
  unfold nodeFree at h
  obtain ⟨n, -, h⟩ := Option.bind_eq_some_iff.mp h
  dsimp only at h
  split_ifs at h
  · cases h
    exact ⟨rfl, rfl⟩
  · cases h
    exact ⟨rfl, rfl⟩

theorem placeNode_counts {s : Slot} (h : t.placeNode ops s key payload = some (rc, t')) :
    t'.size = t.size ∧ t'.used ≤ t.used + 1 := by
  unfold placeNode at h
  obtain ⟨⟨node, t₁⟩, halloc, h⟩ := Option.bind_eq_some_iff.mp h
  obtain ⟨t₂, hstore, h⟩ := Option.bind_eq_some_iff.mp h
  obtain ⟨hsize₁, hused₁⟩ := nodeAlloc_counts halloc
  obtain ⟨hsize₂, hused₂⟩ := store_counts hstore
  cases node with
  | none =>
      cases h
      exact ⟨hsize₂.trans hsize₁, by omega⟩
  | some a =>
      cases h
      exact ⟨hsize₂.trans hsize₁, by change t₂.used + 1 ≤ _; omega⟩

theorem relinkChain_counts {fuel : ℕ} {p : Option ℕ} (h : relinkChain ops fuel p t = some t') :
    t'.size = t.size ∧ t'.used = t.used := by
  induction fuel generalizing p t with
  | zero =>
      cases p with
      | none =>
          cases h
          exact ⟨rfl, rfl⟩
      | some a => cases h
  | succ fuel ih =>
      cases p with
      | none =>
          cases h
          exact ⟨rfl, rfl⟩
      | some a =>
          unfold relinkChain at h
          obtain ⟨n, -, h⟩ := Option.bind_eq_some_iff.mp h
          obtain ⟨s, -, h⟩ := Option.bind_eq_some_iff.mp h
          obtain ⟨t₁, hstore, h⟩ := Option.bind_eq_some_iff.mp h
          obtain ⟨t₂, hstore', h⟩ := Option.bind_eq_some_iff.mp h
          obtain ⟨hsize₁, hused₁⟩ := store_counts hstore
          obtain ⟨hsize₂, hused₂⟩ := store_counts hstore'
          obtain ⟨hsize, hused⟩ := ih h
          exact ⟨hsize.trans (hsize₂.trans hsize₁), hused.trans (hused₂.trans hused₁)⟩

theorem relinkBuckets_counts {old : List (Option ℕ)} {k : ℕ}
    (h : relinkBuckets ops old k t = some t') : t'.size = t.size ∧ t'.used = t.used := by
  induction k generalizing t with
  | zero =>
      cases h
      exact ⟨rfl, rfl⟩
  | succ k ih =>
      unfold relinkBuckets at h
      obtain ⟨p, -, h⟩ := Option.bind_eq_some_iff.mp h
      obtain ⟨t₁, hchain, h⟩ := Option.bind_eq_some_iff.mp h
      obtain ⟨hsize₁, hused₁⟩ := relinkChain_counts hchain
      obtain ⟨hsize, hused⟩ := ih h
      exact ⟨hsize.trans hsize₁, hused.trans hused₁⟩

theorem resize_counts {s : ℕ} (h : t.resize ops s = some (rc, t')) :
    t'.used = t.used ∧ (rc ≠ 0 ∧ t'.size = t.size ∨ rc = 0 ∧ t'.size = nbucketRoundup s) := by
  unfold resize bucketAlloc request at h
  obtain ⟨⟨bucket, t₁⟩, halloc, h⟩ := Option.bind_eq_some_iff.mp h
  have ht₁ : t₁ = { t with requests := t.requests + 1 } := by
    dsimp only at halloc
    split_ifs at halloc
    · cases halloc
      rfl
    · cases halloc
      rfl
  subst ht₁
  cases bucket with
  | none =>
      cases h
      exact ⟨rfl, Or.inl ⟨by decide, rfl⟩⟩
  | some bucket =>
      obtain ⟨t₂, hrelink, h⟩ := Option.bind_eq_some_iff.mp h
      obtain ⟨hsize, hused⟩ := relinkBuckets_counts hrelink
      cases h
      exact ⟨hused, Or.inr ⟨rfl, hsize⟩⟩

theorem nbucketRoundup_ge {s : ℕ} (hs : s ≤ 2 ^ 63) : s ≤ nbucketRoundup s := by
  obtain ⟨e, he, -, hle, -⟩ := nbucketRoundup_spec hs
  rw [he]
  exact hle

/-! ## Room -/

theorem Holds.size_ge (h : Holds ops t L) : 8 ≤ t.size := by
  obtain ⟨cs, free, hat, -⟩ := h
  obtain ⟨e, h3, he⟩ := hat.placed.count
  rw [he]
  exact (Nat.pow_le_pow_right (by norm_num) h3 : 2 ^ 3 ≤ 2 ^ e)

theorem Holds.addNode_roomy (h : Holds ops t L) (hroomy : t.Roomy) (hg : t.GrowsBelow) {s : Slot}
    (hadd : t.addNode ops s key payload = some (rc, t')) : t'.Roomy := by
  have height := h.size_ge
  unfold Roomy at hroomy ⊢
  unfold ChainTable.addNode at hadd
  split_ifs at hadd with hcrowd
  · obtain ⟨-, h63⟩ := h.growTarget_small hg hcrowd
    obtain ⟨⟨rc₁, t₁⟩, hres, hadd⟩ := Option.bind_eq_some_iff.mp hadd
    obtain ⟨hused, hsize⟩ := resize_counts hres
    dsimp only at hadd
    split_ifs at hadd with hrc
    · cases hadd
      obtain ⟨-, hsize⟩ := hsize.resolve_right fun hzero => hrc hzero.1
      rw [hused, hsize]
      exact hroomy
    · obtain ⟨s₁, -, hplace⟩ := Option.bind_eq_some_iff.mp hadd
      obtain ⟨hsize', hused'⟩ := placeNode_counts hplace
      obtain ⟨-, hsize⟩ := hsize.resolve_left fun hne => hrc hne.1
      have hgrown := nbucketRoundup_ge h63
      have htarget : t.size + 4 ≤ t.growTarget := by
        obtain ⟨cs, free, hat, -⟩ := h
        have hsmall := hat.small
        unfold growTarget
        rw [Nat.shiftRight_eq_div_pow, Nat.mod_eq_of_lt (by split_ifs <;> omega)]
        split_ifs <;> omega
      omega
  · obtain ⟨hsize, hused⟩ := placeNode_counts hadd
    rw [Nat.shiftRight_eq_div_pow] at hcrowd
    omega

theorem Holds.dropNode_roomy (h : Holds ops t L) (hroomy : t.Roomy) {s : Slot}
    (hdrop : t.dropNode ops s a = some t') : t'.Roomy := by
  obtain ⟨-, h63⟩ := h.shrink_small (Nat.shiftRight_le t.size 1)
  unfold Roomy at hroomy ⊢
  unfold ChainTable.dropNode at hdrop
  obtain ⟨n, -, hdrop⟩ := Option.bind_eq_some_iff.mp hdrop
  obtain ⟨t₁, hstore, hdrop⟩ := Option.bind_eq_some_iff.mp hdrop
  obtain ⟨t₂, hfree, hdrop⟩ := Option.bind_eq_some_iff.mp hdrop
  obtain ⟨hsize₁, hused₁⟩ := store_counts hstore
  obtain ⟨hsize₂, hused₂⟩ := nodeFree_counts hfree
  dsimp only at hdrop
  rw [hsize₂, hsize₁, hused₂, hused₁] at hdrop
  split_ifs at hdrop with hfew
  · obtain ⟨⟨rc, t₃⟩, hres, hdrop⟩ := Option.bind_eq_some_iff.mp hdrop
    obtain ⟨hused, hsize⟩ := resize_counts hres
    cases hdrop
    have hshrunk := nbucketRoundup_ge h63
    rw [Nat.shiftRight_eq_div_pow, Nat.shiftRight_eq_div_pow] at hfew
    rw [Nat.shiftRight_eq_div_pow] at hshrunk hsize
    rw [hused]
    dsimp only at hsize ⊢
    rcases hsize with ⟨-, hsize⟩ | ⟨-, hsize⟩
    · omega
    · omega
  · cases hdrop
    dsimp only
    omega

theorem clear_roomy (h : t.clear ops = some t') : t'.Roomy := by
  unfold clear at h
  obtain ⟨t₁, -, h⟩ := Option.bind_eq_some_iff.mp h
  unfold Roomy
  dsimp only at h
  split_ifs at h
  · obtain ⟨⟨rc, t₂⟩, hres, h⟩ := Option.bind_eq_some_iff.mp h
    obtain ⟨hused, -⟩ := resize_counts hres
    cases h
    rw [hused]
    exact Nat.zero_le _
  · cases h
    exact Nat.zero_le _

/-! ## Placement -/

theorem HoldsAt.inBucket {cs : List (List ℕ)} {free : List ℕ} {i : ℕ} (hat : HoldsAt ops t cs free)
    (ha : t.InBucket i a) : ∃ as, cs[i]? = some as ∧ a ∈ as := by
  obtain ⟨p, as, hb, hchain, hmem⟩ := ha
  have hi : i < cs.length := by
    rw [← hat.linked.length]
    exact (List.getElem?_eq_some_iff.mp hb).1
  have hcs : cs[i]? = some cs[i] := List.getElem?_eq_getElem hi
  have hsame : as = cs[i] := LinkField.Chain.unique hchain (hat.linked.chain i p _ hb hcs)
  exact ⟨cs[i], hcs, hsame ▸ hmem⟩

theorem Holds.home_inBucket {i : ℕ} {n : ChainNode K P} (h : Holds ops t L)
    (ha : t.InBucket i a) (hn : t.heap a = some n) : ops.hash n.key &&& (t.size - 1) = i := by
  obtain ⟨cs, free, hat, -⟩ := h
  obtain ⟨as, hcs, hmem⟩ := hat.inBucket ha
  exact hat.placed.home i as hcs (n.key, n.payload) (mem_entries.mpr ⟨a, hmem, entry_eq hn⟩)

theorem Holds.distinct_inBucket {i j : ℕ} {n m : ChainNode K P} (h : Holds ops t L)
    (ha : t.InBucket i a) (hn : t.heap a = some n) (hb : t.InBucket j b) (hm : t.heap b = some m)
    (heq : ops.keycmp n.key m.key = 0) : a = b := by
  obtain ⟨cs, free, hat, -⟩ := h
  obtain ⟨as, has, ha⟩ := hat.inBucket ha
  obtain ⟨bs, hbs, hb⟩ := hat.inBucket hb
  let R : ℕ → ℕ → Prop := fun c d => ∀ x, t.entry c = some x → ∀ y, t.entry d = some y →
    ops.keycmp x.1 y.1 ≠ 0
  have hpair : cs.flatten.Pairwise R := List.pairwise_filterMap.mp hat.placed.distinct
  have hsymm : Std.Symm R :=
    ⟨fun c d hcd y hy x hx hc => hcd x hx y hy (ops.keycmp_symm _ _ hc)⟩
  by_contra hne
  exact hpair.forall (flatten_mem has ha) (flatten_mem hbs hb) hne (n.key, n.payload) (entry_eq hn)
    (m.key, m.payload) (entry_eq hm) heq

theorem Holds.bucket_chain {i : ℕ} (h : Holds ops t L) (hi : i < t.size) :
    ∃ p as, t.bucket[i]? = some p ∧ t.Chain p as := by
  obtain ⟨cs, free, hat, -⟩ := h
  have hlt : i < cs.length := by
    rw [hat.placed.length]
    exact hi
  have hcs : cs[i]? = some cs[i] := List.getElem?_eq_getElem hlt
  obtain ⟨p, hb, hchain⟩ := hat.linked.alive_of_lt hcs
  exact ⟨p, cs[i], hb, hchain⟩

end ChainTable

variable {K V : Type} {args : HashtableArgs K V} {null : V} {t t' : Hashtable K V}

/-- A table whose buckets a lookup can rely on, no fuller than an insertion leaves it. -/
structure HashtableWell (args : HashtableArgs K V) (t : Hashtable K V) : Prop where
  size : ∃ e, t.size = 2 ^ e ∧ 8 ≤ t.size
  used : t.used ≤ t.size + t.size / 8 + 1
  chain : ∀ i < t.size, ∃ p as, t.bucket[i]? = some p ∧ t.Chain p as
  home : ∀ i a n, t.InBucket i a → t.heap a = some n → args.hash n.key &&& (t.size - 1) = i
  distinct : ∀ i j a b n m, t.InBucket i a → t.InBucket j b → t.heap a = some n →
    t.heap b = some m → args.keycmp n.key m.key = 0 → a = b

theorem hashtableWell_of_holds {L : List (K × V)} (h : t.Holds args.ops L) (hroomy : t.Roomy) :
    HashtableWell args t := by
  have hsize := h.size_ge
  refine ⟨?_, hroomy, fun i hi => h.bucket_chain hi, fun i a n ha hn => h.home_inBucket ha hn,
    fun i j a b n m ha hb hn hm heq => h.distinct_inBucket ha hn hb hm heq⟩
  obtain ⟨cs, free, hat, -⟩ := h
  obtain ⟨e, -, he⟩ := hat.placed.count
  exact ⟨e, he, hsize⟩

theorem hashtableInsert_roomy [DecidableEq V] {L : List (K × V)} {key : K} {value : V} {rc : ℤ}
    (h : t.Holds args.ops L) (hroomy : t.Roomy) (hg : t.GrowsBelow)
    (hins : hashtableInsert args t key value = some (rc, t')) : t'.Roomy := by
  unfold hashtableInsert at hins
  obtain ⟨s, -, hins⟩ := Option.bind_eq_some_iff.mp hins
  obtain ⟨node, -, hins⟩ := Option.bind_eq_some_iff.mp hins
  cases node with
  | some a =>
      obtain ⟨n, -, hins⟩ := Option.bind_eq_some_iff.mp hins
      dsimp only at hins
      split_ifs at hins
      · cases hins
        exact hroomy
      · cases hins
        exact hroomy
  | none => exact h.addNode_roomy hroomy hg hins

theorem hashtableRemove_roomy {L : List (K × V)} {key : K} {rc : ℤ} (h : t.Holds args.ops L)
    (hroomy : t.Roomy) (hrem : hashtableRemove args t key = some (rc, t')) : t'.Roomy := by
  unfold hashtableRemove at hrem
  obtain ⟨s, -, hrem⟩ := Option.bind_eq_some_iff.mp hrem
  obtain ⟨node, -, hrem⟩ := Option.bind_eq_some_iff.mp hrem
  cases node with
  | none =>
      cases hrem
      exact hroomy
  | some a =>
      obtain ⟨t₁, hdrop, hrem⟩ := Option.bind_eq_some_iff.mp hrem
      cases hrem
      exact h.dropNode_roomy hroomy hdrop

theorem hashtableStep_roomy [DecidableEq V] {L : List (K × V)} {op : HashtableOp K V}
    {res : HashtableRes K V} (h : t.Holds args.ops L) (hroomy : t.Roomy) (hg : t.GrowsBelow)
    (hstep : hashtableStep args null t op = some (res, t')) : t'.Roomy := by
  cases op with
  | insert key value =>
      obtain ⟨⟨rc, t₁⟩, hins, hstep⟩ := Option.bind_eq_some_iff.mp hstep
      cases hstep
      exact hashtableInsert_roomy h hroomy hg hins
  | remove key =>
      obtain ⟨⟨rc, t₁⟩, hrem, hstep⟩ := Option.bind_eq_some_iff.mp hstep
      cases hstep
      exact hashtableRemove_roomy h hroomy hrem
  | clear =>
      obtain ⟨⟨rc, t₁⟩, hclear, hstep⟩ := Option.bind_eq_some_iff.mp hstep
      obtain ⟨t₂, hclear, hres⟩ := Option.bind_eq_some_iff.mp hclear
      cases hres
      cases hstep
      exact ChainTable.clear_roomy hclear
  | contains key =>
      obtain ⟨found, -, hstep⟩ := Option.bind_eq_some_iff.mp hstep
      cases hstep
      exact hroomy
  | lookup key =>
      obtain ⟨v, -, hstep⟩ := Option.bind_eq_some_iff.mp hstep
      cases hstep
      exact hroomy
  | size =>
      cases hstep
      exact hroomy
  | foreach =>
      obtain ⟨pairs, -, hstep⟩ := Option.bind_eq_some_iff.mp hstep
      cases hstep
      exact hroomy

/-- In every state reached from a new table, whatever allocations fail, the buckets are as a
lookup needs them, and the load is bounded. -/
theorem hashtableRun_well [DecidableEq V] {size : ℕ} {t₀ : Hashtable K V} (hsize : size ≤ 2 ^ 28)
    (halloc : hashtableAlloc args size = some (some t₀))
    {trace : List (HashtableOp K V × HashtableRes K V)}
    (hrun : Run (HashtableTransition args null) t₀ trace t) : HashtableWell args t := by
  let I : Hashtable K V → Prop := fun t => (∃ L, t.Holds args.ops L) ∧ t.Roomy
  have hstep : ∀ s l s', I s → HashtableTransition args null s l s' → I s' := by
    rintro s l s' ⟨⟨L, hL⟩, hroomy⟩ ⟨hg, hl⟩
    refine ⟨?_, hashtableStep_roomy hL hroomy hg hl⟩
    obtain ⟨res, s₁, m', hres, ⟨L', hL', -⟩, -⟩ :=
      hashtableStep_spec null ⟨L, hL, fun _ => rfl⟩ hg l.1
    rw [hl] at hres
    obtain ⟨-, rfl⟩ := Prod.mk.inj (Option.some.inj hres)
    exact ⟨L', hL'⟩
  have hnew := (ChainTable.create_holds hsize halloc).1
  have hempty : t₀.Roomy := by
    unfold ChainTable.Roomy
    rw [hnew.used_eq]
    exact Nat.zero_le _
  obtain ⟨⟨L, hL⟩, hroomy⟩ := hrun.invariant I hstep ⟨⟨[], hnew⟩, hempty⟩
  exact hashtableWell_of_holds hL hroomy

theorem hashtableRun_well_numbers : ∃ t, Run (HashtableTransition numberTable 0) numberTable₀
    [(.insert 3 30, .code (-2)), (.insert 3 30, .code 0)] t ∧ HashtableWell numberTable t := by
  have hlow : ∀ t : Hashtable ℕ ℕ, t.used ≤ t.size → t.GrowsBelow := fun t h hc =>
    absurd hc (Nat.not_lt.mpr (h.trans (Nat.le_add_right _ _)))
  obtain ⟨t, hrun⟩ : ∃ t, Run (HashtableTransition numberTable 0) numberTable₀
      [(.insert 3 30, .code (-2)), (.insert 3 30, .code 0)] t :=
    ⟨_, .cons ⟨hlow _ (by decide), rfl⟩ (.cons ⟨hlow _ (by decide), rfl⟩ (.nil _))⟩
  exact ⟨t, hrun, hashtableRun_well (by norm_num : 6 ≤ 2 ^ 28) rfl hrun⟩

end Carthage
