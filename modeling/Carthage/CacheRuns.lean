import Carthage.CacheSteps

/-!
# Runs of the cache

What holds after every run of safe operations: the index and the lists have the same nodes,
what is retained stays, and `free_func` is called once on what leaves.
-/

namespace Carthage

variable {K V : Type} {args : CacheArgs K V} {c c' c₀ : DataCache K V} {v v' : CacheView K V}
  {e : CacheEntry K V} {key : K} {op : CacheOp K V} {ops : List (CacheOp K V)} {r : CacheRes V}
  {ls : List (CacheOp K V × CacheRes V)}

theorem bucketOf_lt (hsize : args.size ≤ 2 ^ 60) (key : K) :
    args.bucketOf key < nbucketRoundup args.size ∧
      8 * args.bucketOf key + 8 ≤ 8 * nbucketRoundup args.size % 2 ^ 64 := by
  obtain ⟨e, he, -, -, hmin⟩ := nbucketRoundup_spec (hsize.trans (by norm_num) : args.size ≤ 2 ^ 63)
  have hle : e ≤ 60 := hmin 60 (by norm_num) hsize
  have hpow : 2 ^ e ≤ 2 ^ 60 := Nat.pow_le_pow_right Nat.two_pos hle
  have hlt : args.bucketOf key < 2 ^ e := by
    unfold CacheArgs.bucketOf CacheArgs.mask
    rw [he, sub64_eq Nat.one_le_two_pow]
    exact and_mask_lt _ e
  rw [he]
  refine ⟨hlt, ?_⟩
  rw [Nat.mod_eq_of_lt (by omega)]
  omega

namespace CacheHolds

theorem searchable_of_mem (h : CacheHolds args c v) (he : e ∈ v.entries)
    (hk : args.keycmp e.key key = 0) : c.Searchable args key ∧
      ∃ n, c.found args key = some n ∧ n.entry = e := by
  obtain ⟨a, n, hn, rfl⟩ := h.exists_node he
  obtain ⟨cs, ends, hidx, -⟩ := h.index
  obtain ⟨s, hlook, hload⟩ := hidx.lookup_found hn hk
  refine ⟨⟨?_, ?_⟩, n, ?_, rfl⟩
  · rw [← CacheArgs.bucketOf_eq hk]
    exact (hidx.mem a n hn).1
  · rw [hlook]
    rfl
  · simp only [DataCache.found, hlook, hload, Option.bind_eq_bind, Option.bind_some, hn]

theorem eq_of_match (h : CacheHolds args c v) {e' : CacheEntry K V} (he : e ∈ v.entries)
    (he' : e' ∈ v.entries) (hk : args.keycmp e.key key = 0) (hk' : args.keycmp e'.key key = 0) :
    e = e' := by
  obtain ⟨-, n, hn, rfl⟩ := h.searchable_of_mem he hk
  obtain ⟨-, n', hn', rfl⟩ := h.searchable_of_mem he' hk'
  rw [Option.some.inj (hn.symm.trans hn')]

theorem searchable (h : CacheHolds args c v) (hsize : args.size ≤ 2 ^ 60)
    (hnull : ∀ i < nbucketRoundup args.size, args.uninit i = none) (hleft : v.left = [])
    (key : K) : c.Searchable args key := by
  obtain ⟨cs, ends, hidx, hends⟩ := h.index
  obtain ⟨hlt, hrange⟩ := bucketOf_lt hsize key
  have hinit := hnull _ hlt
  refine ⟨hinit, ?_⟩
  by_cases hex : ∃ a n, c.heap a = some n ∧ args.keycmp n.key key = 0
  · obtain ⟨a, n, hn, hk⟩ := hex
    obtain ⟨s, hlook, -⟩ := hidx.lookup_found hn hk
    rw [hlook]
    rfl
  · push Not at hex
    have hend : ends (args.bucketOf key) = none := by
      by_contra hsome
      obtain ⟨a, ha⟩ := Option.ne_none_iff_exists'.mp hsome
      obtain ⟨e, he, -⟩ := hends _ a ha
      rw [hleft] at he
      cases he
    rw [← h.bytes] at hrange
    obtain ⟨hlook, -⟩ := hidx.lookup_absent hinit hrange hend hex
    rw [hlook]
    rfl

end CacheHolds

/-! ## Nodes on the lists and in the index -/

def DataCache.Reaches (args : CacheArgs K V) (c : DataCache K V) (a : ℕ) : Prop :=
  ∃ i < nbucketRoundup args.size, ∃ as,
    (CNode.hashLink K V).Path c.heap (c.hashtable i) as (some a)

/-- The nodes reached from the buckets are those on the two lists, each on one of them. -/
structure CacheAgrees (args : CacheArgs K V) (c : DataCache K V) (rs ks : List ℕ) : Prop where
  recent : (CNode.links K V).Doubly c.heap c.head c.tail rs
  retained : (CNode.links K V).next.Chain c.heap c.retained ks
  nodup : (rs ++ ks).Nodup
  reaches : ∀ a, c.Reaches args a ↔ a ∈ rs ++ ks
  used : c.used = (rs ++ ks).length
  size : c.used ≤ args.size
  contains : ∀ key, ∃ b, cacheContains args c key = some b ∧
    (b = true ↔ ∃ a ∈ rs ++ ks, ∃ n, c.heap a = some n ∧ args.keycmp n.key key = 0)

theorem CacheAgrees.alive {rs ks : List ℕ} {a : ℕ} (h : CacheAgrees args c rs ks)
    (ha : c.Reaches args a) : ∃ n, c.heap a = some n := by
  rcases List.mem_append.mp ((h.reaches a).mp ha) with hmem | hmem
  · exact h.recent.next.alive hmem
  · exact h.retained.alive hmem

/-- No entry is purged, removed or cleared, none is retained at an end of the list, and no last
release is made. -/
def CacheOp.Clean (args : CacheArgs K V) (c : DataCache K V) : CacheOp K V → Prop
  | .insert _ _ => c.used ≠ args.size
  | .remove key => ∀ n, c.found args key = some n → 0 < n.retain
  | .retain key => ∀ n, c.found args key = some n → n.retain = 0 → n.prev ≠ none ∧ n.next ≠ none
  | .release key => ∀ n, c.found args key = some n → n.retain ≠ 1
  | .clear => c.retained ≠ none ∨ c.head = none

theorem CacheHolds.agrees (h : CacheHolds args c v) (hsize : args.size ≤ 2 ^ 60)
    (hnull : ∀ i < nbucketRoundup args.size, args.uninit i = none) (hleft : v.left = []) :
    ∃ rs ks, CacheAgrees args c rs ks := by
  obtain ⟨rs, ks, hl, hrs, hks⟩ := h.lists
  obtain ⟨cs, ends, hidx, hends⟩ := h.index
  refine ⟨rs, ks, hl.recent, hl.retained, hl.nodup, fun a => ⟨?_, fun ha => ?_⟩, ?_, h.size,
    fun key => ?_⟩
  · rintro ⟨i, hi, as, hpath⟩
    have hend : ends i = none := by
      by_contra hsome
      obtain ⟨b, hb⟩ := Option.ne_none_iff_exists'.mp hsome
      obtain ⟨e, he, -⟩ := hends i b hb
      rw [hleft] at he
      cases he
    have hch := hidx.chain i (hnull i hi)
    rw [hend] at hch
    obtain ⟨n, hn⟩ := hch.alive (LinkField.Chain.mem_of_path hch hpath)
    exact hl.mem a n hn
  · obtain ⟨n, hn⟩ := hl.alive ha
    obtain ⟨hinit, hmem⟩ := hidx.mem a n hn
    obtain ⟨pre, post, hsplit⟩ := List.append_of_mem hmem
    have hch := hidx.chain _ hinit
    rw [hsplit] at hch
    obtain ⟨r, hpre, hr, -⟩ := LinkField.path_append.mp hch
    obtain rfl : r = some a := hr
    exact ⟨_, (bucketOf_lt hsize n.key).1, pre, hpre⟩
  · rw [h.used, List.length_append, hrs.length, hks.length]
    exact List.length_append
  · rcases h.search (h.searchable hsize hnull hleft key) with
      ⟨s, a, n, hlook, hload, hn, hk, -⟩ | ⟨s, hlook, hload, habsent⟩
    · refine ⟨true, ?_, fun _ => ⟨a, hl.mem a n hn, n, hn, hk⟩, fun _ => rfl⟩
      simp only [cacheContains, hlook, hload, Option.bind_eq_bind, Option.bind_some,
        Option.pure_def, Option.isSome_some]
    · refine ⟨false, ?_, ⟨fun hb => absurd hb Bool.false_ne_true, ?_⟩⟩
      · simp only [cacheContains, hlook, hload, Option.bind_eq_bind, Option.bind_some,
          Option.pure_def, Option.isSome_none]
      · rintro ⟨a, -, n, hn, hk⟩
        exact absurd hk (habsent n.entry (h.mem_entries hn))

/-- A clean operation leaves nothing behind. -/
theorem cacheStep_clean (h : CacheHolds args c v) (hsize : args.size ≤ 2 ^ 60)
    (hnull : ∀ i < nbucketRoundup args.size, args.uninit i = none) (hleft : v.left = [])
    (hc : op.Clean args c) : ∃ r c' v', cacheStep args c op = some (r, c') ∧
      CacheHolds args c' v' ∧ v'.left = [] := by
  have hsearch := h.searchable hsize hnull hleft
  have hsafe : op.Safe args c := by
    cases op with
    | insert key data =>
        unfold CacheOp.Safe
        dsimp only
        rw [if_neg hc]
        exact hsearch key
    | remove key => exact ⟨hsearch key, hc⟩
    | retain key => exact ⟨hsearch key, hc⟩
    | release key => exact ⟨hsearch key, hc⟩
    | clear => trivial
  obtain ⟨r, c', v', hstep, hspec, h'⟩ := cacheStep_holds h hsafe
  refine ⟨r, c', v', hstep, h', ?_⟩
  have hmakes : ∀ {v₁ : CacheView K V}, v.Makes args v₁ → c.used ≠ args.size → v₁ = v := by
    intro v₁ hm hne
    rw [h.used] at hne
    cases hm with
    | room => rfl
    | lru es e htype hfull => exact absurd hfull hne
    | mru es e htype hfull => exact absurd hfull hne
  cases hspec with
  | insert v₁ key data hm =>
      obtain rfl := hmakes hm hc
      exact hleft
  | refuse v₁ key data hm =>
      obtain rfl := hmakes hm hc
      exact hleft
  | remove key l₁ l₂ e hrec hk hzero =>
      have he : e ∈ v.entries := by
        unfold CacheView.entries
        rw [hrec]
        simp
      obtain ⟨-, n, hfound, rfl⟩ := h.searchable_of_mem he hk
      exact absurd hzero (Nat.ne_of_gt (hc n hfound))
  | clear hret =>
      have hnone : v.recent = [] := by
        obtain ⟨rs, ks, hl, hrs, hks⟩ := h.lists
        rw [hret] at hks
        obtain rfl : ks = [] := List.eq_nil_of_length_eq_zero hks.length
        have hhead := hc.resolve_left (not_not_intro hl.retained)
        rw [hl.recent.head_eq, List.head?_eq_none_iff] at hhead
        rw [hhead] at hrs
        exact List.eq_nil_of_length_eq_zero hrs.length.symm
      rw [hleft, hnone]
      rfl
  | missing | busy | noRetain | pin | retain | noRelease | release | unpin | keep => exact hleft

/-- Along every run of clean operations the index and the lists agree. -/
theorem cacheRun_agrees (hsize : args.size ≤ 2 ^ 60)
    (hnull : ∀ i < nbucketRoundup args.size, args.uninit i = none)
    (halloc : cacheAlloc args = some c₀)
    (hm : Meets (cacheStep args) (fun c op => op.Clean args c) c₀ ops) :
    ∃ rs c recent retained, runAll (cacheStep args) c₀ ops = some (rs, c) ∧
      CacheAgrees args c recent retained := by
  obtain ⟨rs, c, hrun, v, h, hleft⟩ := runAll_invariant
    (fun c => ∃ v, CacheHolds args c v ∧ v.left = [])
    (fun c op ⟨v, h, hleft⟩ hc => by
      obtain ⟨r, c', v', hstep, h', hleft'⟩ := cacheStep_clean h hsize hnull hleft hc
      exact ⟨r, c', hstep, v', h', hleft'⟩)
    ⟨_, cacheHolds_alloc halloc, rfl⟩ hm
  obtain ⟨recent, retained, hagrees⟩ := h.agrees hsize hnull hleft
  exact ⟨rs, c, recent, retained, hrun, hagrees⟩

/-- Number keys, and memory that is null. -/
def numberCache (size : ℕ) (type : CacheType) (freeFunc : Bool) : CacheArgs ℕ ℕ :=
  { numberKeys with
    granted := fun _ => true, freeFunc := freeFunc, size := size, type := type,
    uninit := fun _ => none }

/-- The cache of numbers that `cacheAlloc` makes, for up to 8 entries. -/
def emptyNumberCache : DataCache ℕ ℕ :=
  ⟨none, none, none, fun _ => none, 64, 0, fun _ => none, 0, 1, []⟩

theorem cacheRun_agrees_pinned : ∃ rs c recent retained,
    runAll (cacheStep (numberCache 4 .lru false)) emptyNumberCache
      [.insert 1 10, .insert 9 90, .insert 2 20, .retain 9, .remove 9, .clear] = some (rs, c) ∧
    CacheAgrees (numberCache 4 .lru false) c recent retained := by
  apply cacheRun_agrees (by decide) (fun _ _ => rfl) rfl
  refine ⟨(by decide : 0 ≠ 4), ?_⟩
  rintro r c ⟨⟩
  refine ⟨(by decide : 1 ≠ 4), ?_⟩
  rintro r c ⟨⟩
  refine ⟨(by decide : 2 ≠ 4), ?_⟩
  rintro r c ⟨⟩
  refine ⟨?_, ?_⟩
  · rintro n ⟨⟩ -
    exact ⟨Option.some_ne_none 2, Option.some_ne_none 0⟩
  rintro r c ⟨⟩
  refine ⟨?_, ?_⟩
  · rintro n ⟨⟩
    exact Nat.one_pos
  rintro r c ⟨⟩
  exact ⟨Or.inl (Option.some_ne_none 1), fun _ _ _ => trivial⟩

/-- After a purge the bucket of the purged key still has the address of its node. -/
theorem cacheRun_agrees_purged : ∃ rs c,
    cacheAlloc (numberCache 2 .lru false) = some emptyNumberCache ∧
    runAll (cacheStep (numberCache 2 .lru false)) emptyNumberCache
      [.insert 1 10, .insert 2 20, .insert 3 30] = some (rs, c) ∧
    ∀ recent retained, ¬ CacheAgrees (numberCache 2 .lru false) c recent retained := by
  refine ⟨_, _, rfl, rfl, ?_⟩
  intro recent retained h
  obtain ⟨n, hn⟩ := h.alive (a := 0) ⟨1, by decide, [], rfl⟩
  cases hn

/-! ## Retained entries -/

/-- What is retained is counted, and nothing else is. -/
structure CacheView.Pinned (v : CacheView K V) : Prop where
  recent : ∀ e ∈ v.recent, e.count = 0
  retained : ∀ e ∈ v.retained, 0 < e.count ∧ e.count < 2 ^ 64

/-- What was retained still is, with its data. -/
def CacheView.Keeps (v v' : CacheView K V) : Prop :=
  ∀ e ∈ v.retained, ∃ e' ∈ v'.retained, e'.key = e.key ∧ e'.data = e.data

/-- Besides, nothing is released that was not retained, and counts stay below `2 ^ 64`. -/
def CacheOp.Pins (args : CacheArgs K V) (c : DataCache K V) (op : CacheOp K V) : Prop :=
  op.Safe args c ∧ match op with
    | .retain key => ∀ n, c.found args key = some n → n.retain + 1 < 2 ^ 64
    | .release key => ∀ n, c.found args key = some n → n.retain ≠ 0
    | _ => True

theorem CacheView.Makes.retained (h : v.Makes args v') :
    v'.retained = v.retained ∧ v'.recent ⊆ v.recent := by
  cases h with
  | room => exact ⟨rfl, fun _ he => he⟩
  | lru es e htype hfull hrec =>
      refine ⟨rfl, ?_⟩
      rw [hrec]
      exact List.subset_append_left es [e]
  | mru es e htype hfull hrec =>
      refine ⟨rfl, ?_⟩
      rw [hrec]
      exact List.subset_cons_self e es

theorem CacheView.Keeps.refl (v : CacheView K V) : v.Keeps v := fun e he => ⟨e, he, rfl, rfl⟩

theorem CacheView.Pinned.setCount (hp : v.Pinned) (hcount : e.count ≠ 0)
    (hone : ∀ e' ∈ v.entries, args.keycmp e'.key key = 0 → e' = e) {k : ℕ} (hpos : 0 < k)
    (hlt : k < 2 ^ 64) :
    (v.setCount args.toKeyOps key k).Pinned ∧ v.Keeps (v.setCount args.toKeyOps key k) := by
  refine ⟨⟨fun e' he' => ?_, fun e' he' => ?_⟩, fun e' he' => ?_⟩
  · obtain ⟨d, hd, rfl⟩ := List.mem_map.mp he'
    have hne : ¬ args.keycmp d.key key = 0 := by
      intro hdk
      rw [← hone d (List.mem_append_left _ hd) hdk] at hcount
      exact hcount (hp.recent d hd)
    unfold CacheView.recount
    rw [if_neg hne]
    exact hp.recent d hd
  · obtain ⟨d, hd, rfl⟩ := List.mem_map.mp he'
    unfold CacheView.recount
    split_ifs
    · exact ⟨hpos, hlt⟩
    · exact hp.retained d hd
  · refine ⟨_, List.mem_map_of_mem he', ?_⟩
    unfold CacheView.recount
    split_ifs
    · exact ⟨rfl, rfl⟩
    · exact ⟨rfl, rfl⟩

/-- A step of the view that makes no last release keeps what is retained. -/
theorem CacheSpec.pinned (hspec : CacheSpec args v (op, r) v') (h : CacheHolds args c v)
    (hop : op.Pins args c) (hp : v.Pinned) : v'.Pinned ∧ v.Keeps v' := by
  have hfound : ∀ {key}, ∀ e ∈ v.entries, args.keycmp e.key key = 0 →
      ∃ n, c.found args key = some n ∧ n.entry = e := fun e he hk => (h.searchable_of_mem he hk).2
  cases hspec with
  | insert v₁ key data hm =>
      obtain ⟨hret, hsub⟩ := hm.retained
      refine ⟨⟨fun e he => ?_, ?_⟩, ?_⟩
      · rcases List.mem_cons.mp he with rfl | he
        · rfl
        · exact hp.recent e (hsub he)
      · intro e he
        exact hp.retained e (hret ▸ he)
      · intro e he
        exact ⟨e, hret.symm ▸ he, rfl, rfl⟩
  | refuse v₁ key data hm =>
      obtain ⟨hret, hsub⟩ := hm.retained
      refine ⟨⟨fun e he => hp.recent e (hsub he), fun e he => hp.retained e (hret ▸ he)⟩, ?_⟩
      intro e he
      exact ⟨e, hret.symm ▸ he, rfl, rfl⟩
  | missing | busy | noRetain | noRelease | keep => exact ⟨hp, .refl v⟩
  | remove key l₁ l₂ e hrec =>
      refine ⟨⟨fun d hd => hp.recent d ?_, hp.retained⟩, fun d hd => ⟨d, hd, rfl, rfl⟩⟩
      rw [hrec]
      rcases List.mem_append.mp hd with hd | hd
      · exact List.mem_append_left _ hd
      · exact List.mem_append_right _ (List.mem_cons_of_mem e hd)
  | pin key l₁ l₂ e hrec =>
      refine ⟨⟨fun d hd => hp.recent d ?_, fun d hd => ?_⟩,
        fun d hd => ⟨d, List.mem_cons_of_mem _ hd, rfl, rfl⟩⟩
      · rw [hrec]
        rcases List.mem_append.mp hd with hd | hd
        · exact List.mem_append_left _ hd
        · exact List.mem_append_right _ (List.mem_cons_of_mem e hd)
      · rcases List.mem_cons.mp hd with rfl | hd
        · exact ⟨Nat.one_pos, by norm_num⟩
        · exact hp.retained d hd
  | retain key e he hk hne =>
      obtain ⟨n, hn, rfl⟩ := hfound e he hk
      have hlt : n.entry.count + 1 < 2 ^ 64 := hop.2 n hn
      apply hp.setCount hne fun e' he' hk' => h.eq_of_match he' he hk' hk
      · rw [Nat.mod_eq_of_lt hlt]
        exact Nat.succ_pos _
      · exact Nat.mod_lt _ (by norm_num)
  | release key e he hk hne =>
      obtain ⟨n, hn, rfl⟩ := hfound e he hk
      have hzero : n.entry.count ≠ 0 := hop.2 n hn
      apply hp.setCount hzero fun e' he' hk' => h.eq_of_match he' he hk' hk
      · have hlt : n.entry.count < 2 ^ 64 := by
          rcases List.mem_append.mp he with he | he
          · exact absurd (hp.recent _ he) hzero
          · exact (hp.retained _ he).2
        omega
      · exact Nat.mod_lt _ (by norm_num)
  | unpin key l₁ l₂ e hret hk hone =>
      have he : e ∈ v.entries := by
        unfold CacheView.entries
        rw [hret]
        simp
      obtain ⟨n, hn, rfl⟩ := hfound e he hk
      exact absurd hone (hop.1.2 n hn)
  | clear hret =>
      refine ⟨⟨fun _ he => (nomatch he), fun _ he => (nomatch he)⟩, fun e he => ?_⟩
      rw [hret] at he
      cases he

theorem CacheHolds.retrieve (h : CacheHolds args c v) (hp : v.Pinned) (he : e ∈ v.retained) :
    ∃ c', cacheRetain args c e.key = some (some e.data, c') := by
  obtain ⟨a, n, hn, rfl⟩ := h.exists_node (List.mem_append_right _ he)
  obtain ⟨cs, ends, hidx, -⟩ := h.index
  obtain ⟨s, hlook, hload⟩ := hidx.lookup_found hn (args.keycmp_refl n.key)
  have hne : n.retain ≠ 0 := Nat.ne_of_gt (hp.retained n.entry he).1
  have hkey : n.entry.key = n.key := rfl
  refine ⟨{ c with heap :=
    Function.update c.heap a (some { n with retain := (n.retain + 1) % 2 ^ 64 }) }, ?_⟩
  simp only [cacheRetain, hkey, hlook, hload, hn, DataCache.modify_eq hn, Option.bind_eq_bind,
    Option.bind_some, Option.pure_def, if_neg hne]
  rfl

/-- Along every run without a last release, purges take from the right end of the order, what
is retained stays, and the cache can be cleared if and only if nothing is. -/
theorem cacheRun_pins (halloc : cacheAlloc args = some c₀)
    (hm : Meets (cacheStep args) (fun c op => op.Pins args c) c₀ ops) :
    ∃ rs c v, runAll (cacheStep args) c₀ ops = some (rs, c) ∧
      Run (fun v l v' => CacheSpec args v l v' ∧ v.Keeps v') ⟨[], [], []⟩ (ops.zip rs) v ∧
      CacheHolds args c v ∧ v.Pinned ∧
      ∀ e ∈ v.retained, ∃ c', cacheRetain args c e.key = some (some e.data, c') := by
  obtain ⟨rs, c, v, hrun, -, hspec, h, hp⟩ := runAll_simulates
    (fun c v => CacheHolds args c v ∧ v.Pinned)
    (fun v l v' => CacheSpec args v l v' ∧ v.Keeps v')
    (fun c v op ⟨h, hp⟩ hop => by
      obtain ⟨r, c', v', hstep, hspec, h'⟩ := cacheStep_holds h hop.1
      obtain ⟨hp', hkeeps⟩ := hspec.pinned h hop hp
      exact ⟨r, c', v', hstep, ⟨hspec, hkeeps⟩, h', hp'⟩)
    ⟨cacheHolds_alloc halloc, fun _ he => (nomatch he), fun _ he => (nomatch he)⟩ hm
  exact ⟨rs, c, v, hrun, hspec, h, hp, fun e he => h.retrieve hp he⟩

theorem cacheRun_pins_inner : ∃ rs c v,
    runAll (cacheStep (numberCache 4 .lru false)) emptyNumberCache
      [.insert 1 10, .insert 2 20, .insert 3 30, .retain 2, .retain 2, .release 2, .insert 4 40,
        .insert 5 50, .clear] = some (rs, c) ∧
    Run (fun v l v' => CacheSpec (numberCache 4 .lru false) v l v' ∧ v.Keeps v') ⟨[], [], []⟩
      ([CacheOp.insert 1 10, .insert 2 20, .insert 3 30, .retain 2, .retain 2, .release 2,
        .insert 4 40, .insert 5 50, .clear].zip rs) v ∧
    CacheHolds (numberCache 4 .lru false) c v ∧ v.Pinned ∧
    ∀ e ∈ v.retained,
      ∃ c', cacheRetain (numberCache 4 .lru false) c e.key = some (some e.data, c') := by
  apply cacheRun_pins rfl
  refine ⟨⟨⟨rfl, rfl⟩, trivial⟩, ?_⟩
  rintro r c ⟨⟩
  refine ⟨⟨⟨rfl, rfl⟩, trivial⟩, ?_⟩
  rintro r c ⟨⟩
  refine ⟨⟨⟨rfl, rfl⟩, trivial⟩, ?_⟩
  rintro r c ⟨⟩
  refine ⟨⟨⟨⟨rfl, rfl⟩, ?_⟩, ?_⟩, ?_⟩
  · rintro n ⟨⟩ -
    exact ⟨Option.some_ne_none 2, Option.some_ne_none 0⟩
  · rintro n ⟨⟩
    exact (by decide : 0 + 1 < 2 ^ 64)
  rintro r c ⟨⟩
  refine ⟨⟨⟨⟨rfl, rfl⟩, ?_⟩, ?_⟩, ?_⟩
  · rintro n ⟨⟩ hzero
    exact absurd hzero (by decide : 1 ≠ 0)
  · rintro n ⟨⟩
    exact (by decide : 1 + 1 < 2 ^ 64)
  rintro r c ⟨⟩
  refine ⟨⟨⟨⟨rfl, rfl⟩, ?_⟩, ?_⟩, ?_⟩
  · rintro n ⟨⟩
    exact (by decide : 2 ≠ 1)
  · rintro n ⟨⟩
    exact (by decide : 2 ≠ 0)
  rintro r c ⟨⟩
  refine ⟨⟨⟨rfl, rfl⟩, trivial⟩, ?_⟩
  rintro r c ⟨⟩
  refine ⟨⟨⟨rfl, (by decide : some 3 ≠ some 0), 0, _, rfl, rfl, rfl, rfl, rfl⟩, trivial⟩, ?_⟩
  rintro r c ⟨⟩
  exact ⟨⟨trivial, trivial⟩, fun _ _ _ => trivial⟩

/-- A retention that is released again leaves the cache unable to be cleared, and a purge takes
an entry that was retained while it was the last of the list. -/
theorem cacheRun_pins_ends :
    (∃ c, runAll (cacheStep (numberCache 2 .lru false)) emptyNumberCache
      [.insert 1 10, .retain 1, .release 1, .clear] =
        some ([.code 0, .data (some 10), .code 0, .code (-1)], c)) ∧
    ∃ c c', runAll (cacheStep (numberCache 2 .lru false)) emptyNumberCache
        [.insert 1 10, .retain 1, .insert 2 20] =
          some ([.code 0, .data (some 10), .code 0], c) ∧
      cacheInsert (numberCache 2 .lru false) c 3 30 = some (0, c') ∧
      (c.heap 0).map CNode.entry = some ⟨1, 10, 1⟩ ∧ (c'.heap 0).map CNode.entry = none :=
  ⟨⟨_, rfl⟩, _, _, rfl, rfl, rfl, rfl⟩

/-! ## What is freed -/

/-- The data that a call puts into the cache. -/
def entered : CacheOp K V × CacheRes V → List V
  | (.insert _ data, .code rc) => if rc = 0 then [data] else []
  | _ => []

/-- Nothing of this run is retained. -/
def CacheOp.NoRetain : CacheOp K V → Prop
  | .retain _ => False
  | .release _ => False
  | _ => True

def CacheView.all (v : CacheView K V) : List V := (v.left ++ v.entries).map CacheEntry.data

theorem CacheView.Makes.all (h : v.Makes args v') : v'.all.Perm v.all := by
  apply List.Perm.map
  unfold CacheView.entries
  rw [← Multiset.coe_eq_coe]
  cases h with
  | room => rfl
  | lru es e htype hfull hrec =>
      rw [hrec]
      simp only [← Multiset.coe_add, ← Multiset.cons_coe, ← Multiset.singleton_add, Multiset.coe_nil]
      abel
  | mru es e htype hfull hrec =>
      rw [hrec]
      simp only [← Multiset.coe_add, ← Multiset.cons_coe, ← Multiset.singleton_add, Multiset.coe_nil]
      abel

theorem CacheView.setCount_all (ops : KeyOps K) (v : CacheView K V) (key : K) (count : ℕ) :
    (v.setCount ops key count).all = v.all := by
  have hdata : ∀ e : CacheEntry K V, (recount ops key count e).data = e.data := fun e => by
    unfold recount
    split_ifs
    · rfl
    · rfl
  unfold CacheView.all entries setCount
  simp only [List.map_append, List.map_map, Function.comp_def, hdata]

/-- Data comes in by insertions only, and is never forgotten. -/
theorem CacheSpec.all (h : CacheSpec args v (op, r) v') : v'.all.Perm (v.all ++ entered (op, r)) := by
  cases h with
  | insert v₁ key data hm =>
      refine List.Perm.trans ?_ (hm.all.append_right [data])
      unfold CacheView.all CacheView.entries
      simp only [List.map_append, List.map_cons]
      rw [← Multiset.coe_eq_coe]
      simp only [← Multiset.coe_add, ← Multiset.cons_coe, ← Multiset.singleton_add, Multiset.coe_nil]
      abel
  | refuse v₁ key data hm =>
      have hnone : entered (CacheOp.insert key data, (CacheRes.code (-2) : CacheRes V)) = [] :=
        by simp [entered]
      rw [hnone, List.append_nil]
      exact hm.all
  | missing | busy | noRetain | noRelease | keep => simp [entered]
  | remove key l₁ l₂ e hrec =>
      simp only [entered, List.append_nil]
      apply List.Perm.map
      unfold CacheView.entries
      rw [hrec, ← Multiset.coe_eq_coe]
      simp only [← Multiset.coe_add, ← Multiset.cons_coe, ← Multiset.singleton_add, Multiset.coe_nil]
      abel
  | pin key l₁ l₂ e hrec =>
      simp only [entered, List.append_nil]
      unfold CacheView.all CacheView.entries
      rw [hrec]
      simp only [List.map_append, List.map_cons]
      rw [← Multiset.coe_eq_coe]
      simp only [← Multiset.coe_add, ← Multiset.cons_coe, ← Multiset.singleton_add]
      abel
  | retain key e =>
      simp only [entered, List.append_nil]
      rw [CacheView.setCount_all]
  | release key e =>
      simp only [entered, List.append_nil]
      rw [CacheView.setCount_all]
  | unpin key l₁ l₂ e hret =>
      simp only [entered, List.append_nil]
      unfold CacheView.all CacheView.entries
      rw [hret]
      simp only [List.map_append, List.map_cons]
      rw [← Multiset.coe_eq_coe]
      simp only [← Multiset.coe_add, ← Multiset.cons_coe, ← Multiset.singleton_add]
      abel
  | clear hret =>
      simp only [entered, List.append_nil]
      unfold CacheView.all CacheView.entries
      rw [hret, List.append_nil, List.append_nil, List.append_nil]

theorem specRun_all (h : Run (CacheSpec args) v ls v') :
    v'.all.Perm (v.all ++ ls.flatMap entered) := by
  induction h with
  | nil v =>
      rw [List.flatMap_nil, List.append_nil]
  | @cons _ _ _ l _ hstep _ ih =>
      obtain ⟨op, r⟩ := l
      rw [List.flatMap_cons, ← List.append_assoc]
      exact ih.trans (hstep.all.append_right _)

theorem CacheSpec.retained_nil (h : CacheSpec args v (op, r) v') (hop : op.NoRetain)
    (hret : v.retained = []) : v'.retained = [] := by
  cases h with
  | insert v₁ key data hm => exact hm.retained.1.trans hret
  | refuse v₁ key data hm => exact hm.retained.1.trans hret
  | missing | busy | remove | keep => exact hret
  | clear => rfl
  | noRetain | pin | retain | noRelease | release | unpin => exact hop.elim

theorem specRun_retained_nil (h : Run (CacheSpec args) v ls v') (hops : ∀ l ∈ ls, l.1.NoRetain)
    (hret : v.retained = []) : v'.retained = [] := by
  induction h with
  | nil => exact hret
  | @cons _ _ _ l _ hstep _ ih =>
      obtain ⟨op, r⟩ := l
      apply ih fun l hl => hops l (List.mem_cons_of_mem _ hl)
      exact hstep.retained_nil (hops (op, r) List.mem_cons_self) hret

theorem CacheHolds.free (h : CacheHolds args c v) (hret : v.retained = []) :
    ∃ c', cacheFree args c = some (0, c') ∧ (∀ a, c'.heap a = none) ∧
      c'.freed = if args.freeFunc then (v.left ++ v.recent).map CacheEntry.data else [] := by
  obtain ⟨rc, c₁, v₁, hclear, hspec, h₁⟩ := h.clear
  cases hspec with
  | keep hne => exact absurd hret hne
  | clear =>
      refine ⟨{ c₁ with hashtable := fun _ => none }, ?_, fun a => ?_, h₁.freed⟩
      · simp only [cacheFree, hclear, Option.bind_eq_bind, Option.bind_some, ne_eq,
          not_true_eq_false, if_false, Option.pure_def]
      · by_contra hsome
        obtain ⟨n, hn⟩ := Option.ne_none_iff_exists'.mp hsome
        exact absurd (h₁.mem_entries hn) List.not_mem_nil

/-- Along every safe run `free_func` is called once on the data of every entry that left, and
after the cache is freed on all that ever entered. -/
theorem cacheRun_frees (hfree : args.freeFunc = true) (halloc : cacheAlloc args = some c₀)
    (hops : ∀ op ∈ ops, op.NoRetain)
    (hm : Meets (cacheStep args) (fun c op => op.Safe args c) c₀ ops) :
    ∃ rs c v c', runAll (cacheStep args) c₀ ops = some (rs, c) ∧
      Run (CacheSpec args) ⟨[], [], []⟩ (ops.zip rs) v ∧ CacheHolds args c v ∧
      c.freed = v.left.map CacheEntry.data ∧
      (c.freed ++ v.entries.map CacheEntry.data).Perm ((ops.zip rs).flatMap entered) ∧
      cacheFree args c = some (0, c') ∧ (∀ a, c'.heap a = none) ∧
      c'.freed.Perm ((ops.zip rs).flatMap entered) := by
  obtain ⟨rs, c, v, hrun, hlen, hspec, h⟩ := runAll_simulates (CacheHolds args) (CacheSpec args)
    (fun _ _ _ h hs => cacheStep_holds h hs) (cacheHolds_alloc halloc) hm
  have hret : v.retained = [] := by
    apply specRun_retained_nil hspec _ rfl
    rintro ⟨op, r⟩ hl
    exact hops op (List.of_mem_zip hl).1
  have hall := specRun_all hspec
  obtain ⟨c', hcfree, hheap, hfreed'⟩ := h.free hret
  have hfreed : c.freed = v.left.map CacheEntry.data := by
    rw [h.freed, hfree, if_pos rfl]
  have hentries : v.entries = v.recent := by
    unfold CacheView.entries
    rw [hret, List.append_nil]
  refine ⟨rs, c, v, c', hrun, hspec, h, hfreed, ?_, hcfree, hheap, ?_⟩
  · rw [hfreed, ← List.map_append]
    exact hall
  · rw [hfreed', hfree, if_pos rfl, ← hentries]
    exact hall

theorem cacheRun_frees_cleared : ∃ rs c v c',
    runAll (cacheStep (numberCache 4 .lru true)) emptyNumberCache
      [.insert 1 10, .insert 2 20, .remove 3, .clear, .insert 3 30] = some (rs, c) ∧
    Run (CacheSpec (numberCache 4 .lru true)) ⟨[], [], []⟩
      ([CacheOp.insert 1 10, .insert 2 20, .remove 3, .clear, .insert 3 30].zip rs) v ∧
    CacheHolds (numberCache 4 .lru true) c v ∧ c.freed = v.left.map CacheEntry.data ∧
    (c.freed ++ v.entries.map CacheEntry.data).Perm
      (([CacheOp.insert 1 10, .insert 2 20, .remove 3, .clear, .insert 3 30].zip rs).flatMap
        entered) ∧
    cacheFree (numberCache 4 .lru true) c = some (0, c') ∧ (∀ a, c'.heap a = none) ∧
    c'.freed.Perm
      (([CacheOp.insert 1 10, .insert 2 20, .remove 3, .clear, .insert 3 30].zip rs).flatMap
        entered) := by
  apply cacheRun_frees rfl rfl
  · intro op hop
    fin_cases hop
    all_goals trivial
  refine ⟨⟨rfl, rfl⟩, ?_⟩
  rintro r c ⟨⟩
  refine ⟨⟨rfl, rfl⟩, ?_⟩
  rintro r c ⟨⟩
  refine ⟨⟨⟨rfl, rfl⟩, fun _ hn => (nomatch hn)⟩, ?_⟩
  rintro r c ⟨⟩
  refine ⟨trivial, ?_⟩
  rintro r c ⟨⟩
  exact ⟨⟨rfl, rfl⟩, fun _ _ _ => trivial⟩

/-- A removal frees its node twice. A purge also frees the next node of the chain, with its
data, which is still on the list. -/
theorem cacheRun_frees_twice :
    runAll (cacheStep (numberCache 4 .lru true)) emptyNumberCache [.insert 1 10, .remove 1] = none ∧
    ∃ c, runAll (cacheStep (numberCache 3 .lru true)) emptyNumberCache
        [.insert 1 10, .insert 9 90, .insert 2 20, .insert 3 30] =
          some ([.code 0, .code 0, .code 0, .code 0], c) ∧
      c.freed = [10, 90] ∧ c.tail = some 1 ∧ c.heap 1 = none := by
  refine ⟨rfl, _, rfl, rfl, rfl, rfl⟩

end Carthage
