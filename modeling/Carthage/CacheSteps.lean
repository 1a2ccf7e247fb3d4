import Carthage.CacheLists

/-!
# The operations of the cache

Each operation does to the lists and the index what the view says, as long as it meets a
condition on the cache before it.
-/

namespace Carthage

variable {K V : Type} {args : CacheArgs K V} {c c' : DataCache K V} {v v' : CacheView K V}
  {rs ks : List ℕ} {key : K} {data : V} {a : ℕ} {n : CNode K V}

namespace DataCache

def Searchable (args : CacheArgs K V) (c : DataCache K V) (key : K) : Prop :=
  args.uninit (args.bucketOf key) = none ∧ (cacheHtLookup args c key).isSome

/-- The node of a key. -/
def found (args : CacheArgs K V) (c : DataCache K V) (key : K) : Option (CNode K V) := do
  let s ← cacheHtLookup args c key
  let a ← (← c.load s)
  c.heap a

/-- There are two nodes to choose from, the one that goes is the last of its chain, and the
search for the key does not read it. -/
def Purgeable (args : CacheArgs K V) (c : DataCache K V) (key : K) : Prop :=
  args.freeFunc = false ∧ c.head ≠ c.tail ∧ ∃ a n, c.victim args = some a ∧ c.heap a = some n ∧
    n.hash = none ∧ Searchable args { c with heap := Function.update c.heap a none } key

end DataCache

/-- No purge leaves the list empty or frees a second node, no node that is there is removed, none
is retained at an end of the list, and no last release is made. -/
def CacheOp.Safe (args : CacheArgs K V) (c : DataCache K V) : CacheOp K V → Prop
  | .insert key _ => if c.used = args.size then c.Purgeable args key else c.Searchable args key
  | .remove key => c.Searchable args key ∧ ∀ n, c.found args key = some n → 0 < n.retain
  | .retain key => c.Searchable args key ∧
      ∀ n, c.found args key = some n → n.retain = 0 → n.prev ≠ none ∧ n.next ≠ none
  | .release key => c.Searchable args key ∧ ∀ n, c.found args key = some n → n.retain ≠ 1
  | .clear => True

/-- The cache has the entries of the view. What chains end in was left behind by entries that
left, and only their data was handed to `free_func`. -/
structure CacheHolds (args : CacheArgs K V) (c : DataCache K V) (v : CacheView K V) : Prop where
  lists : ∃ rs ks, c.Listed rs ks ∧ c.Carries rs v.recent ∧ c.Carries ks v.retained
  index : ∃ cs ends, c.Indexed args cs ends ∧
    ∀ i a, ends i = some a → ∃ e ∈ v.left, args.bucketOf e.key = i
  used : c.used = v.entries.length
  size : c.used ≤ args.size
  freed : c.freed = if args.freeFunc then v.left.map CacheEntry.data else []
  bytes : c.tableBytes = 8 * nbucketRoundup args.size % 2 ^ 64

theorem cacheHolds_alloc (halloc : cacheAlloc args = some c) : CacheHolds args c ⟨[], [], []⟩ := by
  unfold cacheAlloc at halloc
  split_ifs at halloc
  obtain rfl := Option.some.inj halloc
  refine ⟨⟨[], [], ⟨LinkPair.Doubly.nil _ _, rfl, List.nodup_nil, fun _ ha => (nomatch ha),
    fun _ _ hn => (nomatch hn)⟩, rfl, rfl⟩, ⟨fun _ => [], fun _ => none, ⟨fun i hi => hi,
    fun _ => List.nodup_nil, fun _ _ he => (nomatch he), fun _ _ _ ha => (nomatch ha),
    fun _ _ hn => (nomatch hn), fun _ _ hn => (nomatch hn), fun _ _ _ _ hn => (nomatch hn),
    fun _ _ hn => (nomatch hn)⟩, fun _ _ he => (nomatch he)⟩, rfl, Nat.zero_le _, ?_, rfl⟩
  split_ifs
  · rfl
  · rfl

theorem DataCache.Listed.alive (h : c.Listed rs ks) (ha : a ∈ rs ++ ks) :
    ∃ n, c.heap a = some n := by
  rcases List.mem_append.mp ha with ha | ha
  · exact h.recent.next.alive ha
  · exact h.retained.alive ha

namespace CacheHolds

theorem mem_entries (h : CacheHolds args c v) (hn : c.heap a = some n) : n.entry ∈ v.entries := by
  obtain ⟨rs, ks, hl, hrs, hks⟩ := h.lists
  rcases List.mem_append.mp (hl.mem a n hn) with ha | ha
  · exact List.mem_append_left _ (hrs.mem ha hn)
  · exact List.mem_append_right _ (hks.mem ha hn)

theorem exists_node (h : CacheHolds args c v) {e : CacheEntry K V} (he : e ∈ v.entries) :
    ∃ a n, c.heap a = some n ∧ n.entry = e := by
  obtain ⟨rs, ks, -, hrs, hks⟩ := h.lists
  rcases List.mem_append.mp he with he | he
  · obtain ⟨a, -, n, hn, hentry⟩ := hrs.exists_node he
    exact ⟨a, n, hn, hentry⟩
  · obtain ⟨a, -, n, hn, hentry⟩ := hks.exists_node he
    exact ⟨a, n, hn, hentry⟩

theorem absent (h : CacheHolds args c v)
    (hne : ∀ a n, c.heap a = some n → args.keycmp n.key key ≠ 0) :
    v.Absent args.toKeyOps key := by
  intro e he
  obtain ⟨a, n, hn, rfl⟩ := h.exists_node he
  exact hne a n hn

theorem search (h : CacheHolds args c v) (hs : c.Searchable args key) :
    (∃ s a n, cacheHtLookup args c key = some s ∧ c.load s = some (some a) ∧
      c.heap a = some n ∧ args.keycmp n.key key = 0 ∧ c.found args key = some n) ∨
    (∃ s, cacheHtLookup args c key = some s ∧ c.load s = some none ∧
      v.Absent args.toKeyOps key) := by
  obtain ⟨cs, ends, hidx, -⟩ := h.index
  rcases hidx.lookup_cases hs.1 hs.2 with ⟨s, a, n, hlook, hload, hn, hk⟩ | ⟨hlook, hload, -, hne⟩
  · left
    refine ⟨s, a, n, hlook, hload, hn, hk, ?_⟩
    simp only [DataCache.found, hlook, hload, Option.bind_eq_bind, Option.bind_some, hn]
  · exact Or.inr ⟨_, hlook, hload, h.absent hne⟩

/-! ## Insertion -/

theorem insertNode (h : CacheHolds args c v) (hs : c.Searchable args key)
    (hroom : c.used ≠ args.size) (data : V) : ∃ rc c' v',
      cacheInsertNode args c key data = some (rc, c') ∧ CacheHolds args c' v' ∧
      (rc = -2 ∧ v' = v ∨ rc = 0 ∧ v.Absent args.toKeyOps key ∧
        v' = { v with recent := ⟨key, data, 0⟩ :: v.recent }) := by
  obtain ⟨rs, ks, hl, hrs, hks⟩ := h.lists
  obtain ⟨cs, ends, hidx, hends⟩ := h.index
  rcases hidx.lookup_cases hs.1 hs.2 with
    ⟨s, a, n, hlook, hload, hn, hk⟩ | ⟨hlook, hload, hend, hne⟩
  · refine ⟨-2, c, v, ?_, h, Or.inl ⟨rfl, rfl⟩⟩
    simp only [cacheInsertNode, cacheHtInsert, hlook, hload, Option.bind_eq_bind, Option.bind_some,
      Option.pure_def]
  · obtain ⟨node, c₁, cs₁, hins, hidx₁, hcases⟩ := hidx.htInsert data hs.1 hlook hload hend hne
    rcases hcases with ⟨rfl, rfl⟩ | ⟨rfl, hc₁, ⟨n, hn, hentry⟩, hrest⟩
    · let c₁ : DataCache K V := { c with requests := c.requests + 1 }
      refine ⟨-2, c₁, v, ?_, ⟨⟨rs, ks, ⟨hl.recent, hl.retained, hl.nodup, hl.front, hl.mem⟩, hrs, hks⟩,
        ⟨cs₁, ends, hidx₁, hends⟩, h.used, h.size, h.freed, h.bytes⟩, Or.inl ⟨rfl, rfl⟩⟩
      simp only [cacheInsertNode, hins, Option.bind_eq_bind, Option.bind_some, Option.pure_def]
      rfl
    · have hold : ∀ b ∈ rs ++ ks, b ≠ c.fresh := by
        intro b hb he
        obtain ⟨m, hm⟩ := hl.alive hb
        exact Nat.ne_of_lt (hidx.bound b m hm) he
      have hrecent : (CNode.links K V).Doubly c₁.heap c₁.head c₁.tail rs := by
        rw [hc₁]
        apply hl.recent.congr
        · intro b hb
          exact map_eq_of_map (hrest b (hold b (List.mem_append_left ks hb))) (fun x => x.1)
        · intro b hb
          exact map_eq_of_map (hrest b (hold b (List.mem_append_left ks hb))) (fun x => x.2.1)
      have hnew : c.fresh ∉ rs ++ ks := fun hmem => hold _ hmem rfl
      obtain ⟨c₂, c₃, hback, hpush, hrel, hret, hrecent₃, hrest₃⟩ :=
        DataCache.pushFront_spec hrecent hn fun hmem => hnew (List.mem_append_left ks hmem)
      have hentry₃ : ∀ b ∈ rs ++ ks,
          (c₃.heap b).map CNode.entry = (c.heap b).map CNode.entry := by
        intro b hb
        rw [hrel.entry b]
        exact map_eq_of_map (hrest b (hold b hb))
          (fun x => (⟨x.2.2.1, x.2.2.2.1, x.2.2.2.2⟩ : CacheEntry K V))
      have hks₃ : ∀ b ∈ ks, (c₃.heap b).map CNode.unhashed = (c.heap b).map CNode.unhashed := by
        intro b hb
        have hmem := List.mem_append_right rs hb
        rw [hrest₃ b, hrest b (hold b hmem)]
        rw [List.mem_cons, not_or]
        exact ⟨hold b hmem, fun hbr => List.disjoint_of_nodup_append hl.nodup hbr hb⟩
      refine ⟨0, c₃, { v with recent := ⟨key, data, 0⟩ :: v.recent }, ?_, ⟨⟨c.fresh :: rs, ks,
        ⟨hrecent₃, ?_, ?_, fun b hb m hm => ?_, fun b m hm => ?_⟩, ?_, ?_⟩,
        ⟨cs₁, ends, hidx₁.congr hrel.search, hends⟩, ?_, ?_, ?_, ?_⟩,
        Or.inr ⟨rfl, h.absent hne, rfl⟩⟩
      · simp only [cacheInsertNode, hins, hback, hpush, Option.bind_eq_bind, Option.bind_some,
          Option.pure_def]
      · rw [hret, hc₁]
        apply hl.retained.congr
        intro b hb
        exact map_eq_of_map (hks₃ b hb) (fun x => x.1)
      · exact List.nodup_cons.mpr ⟨hnew, hl.nodup⟩
      · have heq := map_eq_of_map (hks₃ b hb) (fun x => x.2.1)
        rw [hm] at heq
        obtain ⟨m', hm', hprev⟩ := Option.map_eq_some_iff.mp heq.symm
        exact hprev.symm.trans (hl.front b hb m' hm')
      · by_cases hbf : b = c.fresh
        · rw [hbf]
          exact List.mem_cons_self
        · have heq := hrel.unlinked b
          rw [hm] at heq
          obtain ⟨m₁, hm₁, -⟩ := Option.map_eq_some_iff.mp heq.symm
          have heq₁ := hrest b hbf
          rw [hm₁] at heq₁
          obtain ⟨m₀, hm₀, -⟩ := Option.map_eq_some_iff.mp heq₁.symm
          exact List.mem_cons_of_mem _ (hl.mem b m₀ hm₀)
      · obtain ⟨n₃, hn₃, heq⟩ := hrel.alive hn
        have hentry' : n₃.entry = ⟨key, data, 0⟩ := by
          rw [← hentry]
          exact congrArg (fun x => (⟨x.2.1, x.2.2.1, x.2.2.2⟩ : CacheEntry K V)) heq
        rw [← hentry']
        apply DataCache.carries_cons hn₃
        apply hrs.congr
        intro b hb
        exact hentry₃ b (List.mem_append_left ks hb)
      · apply hks.congr
        intro b hb
        exact hentry₃ b (List.mem_append_right rs hb)
      · rw [hrel.same, hc₁]
        change c.used + 1 = _
        rw [h.used]
        rfl
      · rw [hrel.same, hc₁]
        exact Nat.lt_of_le_of_ne h.size hroom
      · rw [hrel.same, hc₁]
        exact h.freed
      · rw [hrel.same, hc₁]
        exact h.bytes

theorem takeVictim (h : CacheHolds args c v) (hl : c.Listed rs ks) (hrs : c.Carries rs v.recent)
    (hne : c.head ≠ c.tail) (hfull : c.used = args.size) (ha : c.victim args = some a)
    (hn : c.heap a = some n) : ∃ c₁ rs' es,
      cacheVictim args c = some (a, c₁) ∧ DataCache.Relinked c c₁ ∧ c₁.retained = c.retained ∧
      (a :: rs').Perm rs ∧ (CNode.links K V).Doubly c₁.heap c₁.head c₁.tail rs' ∧
      (∀ b ∉ rs', c₁.heap b = c.heap b) ∧ c.Carries rs' es ∧
      v.Makes args ⟨es, v.retained, v.left ++ [n.entry]⟩ := by
  obtain ⟨a', rs', c₁, ha', hvic, hrel, hret, hends, hdoubly, hrest⟩ :=
    DataCache.victim_spec args hl.recent hne
  obtain rfl := Option.some.inj (ha.symm.trans ha')
  have hsize := h.used.symm.trans hfull
  rcases hends with ⟨htype, rfl⟩ | ⟨htype, rfl⟩
  · obtain ⟨es, l₂, hes, hrs', hnil⟩ := hrs.split hn
    obtain rfl : l₂ = [] := List.eq_nil_of_length_eq_zero hnil.length.symm
    exact ⟨c₁, rs', es, hvic, hrel, hret, (List.perm_append_singleton a rs').symm, hdoubly, hrest,
      hrs', .lru v es n.entry htype hsize hes⟩
  · have hcons : c.Carries ([] ++ a :: rs') v.recent := hrs
    obtain ⟨l₁, es, hes, hnil, hrs'⟩ := hcons.split hn
    obtain rfl : l₁ = [] := List.eq_nil_of_length_eq_zero hnil.length.symm
    exact ⟨c₁, rs', es, hvic, hrel, hret, List.Perm.refl _, hdoubly, hrest, hrs',
      .mru v es n.entry htype hsize hes⟩

theorem purge (h : CacheHolds args c v) (hp : c.Purgeable args key) (hfull : c.used = args.size) :
    ∃ c' v', cacheNodePurge args c = some (0, c') ∧ CacheHolds args c' v' ∧ v.Makes args v' ∧
      c'.Searchable args key ∧ c'.used ≠ args.size := by
  obtain ⟨hfree, hne, a, n, ha, hn, hhash, hinit, hsome⟩ := hp
  obtain ⟨rs, ks, hl, hrs, hks⟩ := h.lists
  obtain ⟨cs, ends, hidx, hends⟩ := h.index
  obtain ⟨c₁, rs', es, hvic, hrel, hret, hperm, hdoubly, hrest, hes, hmakes⟩ :=
    h.takeVictim hl hrs hne hfull ha hn
  have hnd : (a :: (rs' ++ ks)).Nodup := ((hperm.append_right ks).nodup_iff).mpr hl.nodup
  obtain ⟨hnot, hnd'⟩ := List.nodup_cons.mp hnd
  rw [List.mem_append, not_or] at hnot
  have hn₁ : c₁.heap a = some n := (hrest a hnot.1).trans hn
  let c₂ : DataCache K V := { c₁ with
    heap := Function.update c₁.heap a none, used := sub64 c₁.used 1 }
  have hkeep : ∀ b, b ≠ a → c₂.heap b = c₁.heap b := fun b hb => Function.update_of_ne hb _ _
  have hne_of : ∀ b ∈ rs' ++ ks, b ≠ a := fun b hb he => by
    rw [he] at hb
    rcases List.mem_append.mp hb with hb | hb
    · exact hnot.1 hb
    · exact hnot.2 hb
  have hks_keep : ∀ b ∈ ks, c₂.heap b = c.heap b := fun b hb => by
    rw [hkeep b (hne_of b (List.mem_append_right rs' hb))]
    apply hrest
    exact fun hb' => List.disjoint_of_nodup_append hnd' hb' hb
  have hlen : v.entries.length = es.length + 1 + v.retained.length := by
    unfold CacheView.entries
    rw [List.length_append, ← hrs.length, ← hperm.length_eq, List.length_cons, hes.length]
  have hused : c₂.used = es.length + v.retained.length := by
    have huc : c₁.used = c.used := by rw [hrel.same]
    change sub64 c₁.used 1 = _
    rw [huc, h.used, hlen, sub64_eq (by omega)]
    omega
  have hsame : DataCache.SameSearch { c with heap := Function.update c.heap a none } c₂ := by
    have hs := hrel.search
    refine ⟨hs.hashtable, hs.tableBytes, hs.fresh, fun b => ?_⟩
    by_cases hb : b = a
    · subst hb
      change (Function.update c₁.heap b none b).map _ = (Function.update c.heap b none b).map _
      rw [Function.update_self, Function.update_self]
    · rw [hkeep b hb, hs.searched b]
      change _ = (Function.update c.heap a none b).map _
      rw [Function.update_of_ne hb]
  obtain ⟨cs', ends', hidx', hleft⟩ := hidx.drop hn hhash
    (show c₂.hashtable = c.hashtable from hrel.search.hashtable)
    hrel.search.tableBytes hrel.search.fresh (Function.update_self a none c₁.heap) fun b hb => by
      rw [hkeep b hb]
      exact hrel.search.searched b
  refine ⟨c₂, ⟨es, v.retained, v.left ++ [n.entry]⟩, ?_,
    ⟨⟨rs', ks, ⟨hdoubly.congr_eq ?_, ?_, hnd', fun b hb m hm => ?_, fun b m hm => ?_⟩, ?_,
    hks.congr_eq hks_keep⟩, ⟨cs', ends', hidx', fun i b hb => ?_⟩, ?_, ?_, ?_,
    hrel.search.tableBytes.trans h.bytes⟩, hmakes, ⟨hinit, ?_⟩, ?_⟩
  · simp only [cacheNodePurge, hvic, cacheHtRemove, hn₁, cacheNodeFree, hhash, hfree,
      Option.bind_eq_bind, Option.bind_some, Option.pure_def]
    rfl
  · intro b hb
    exact hkeep b (hne_of b (List.mem_append_left ks hb))
  · change (CNode.links K V).next.Chain c₂.heap c₁.retained ks
    rw [hret]
    exact hl.retained.congr_eq hks_keep
  · rw [hks_keep b hb] at hm
    exact hl.front b hb m hm
  · have hba : b ≠ a := by
      rintro rfl
      have hdead : c₂.heap b = none := Function.update_self b none c₁.heap
      rw [hdead] at hm
      cases hm
    rw [hkeep b hba] at hm
    have heq := hrel.unlinked b
    rw [hm] at heq
    obtain ⟨m', hm', -⟩ := Option.map_eq_some_iff.mp heq.symm
    have hmem := (hperm.append_right ks).mem_iff.mpr (hl.mem b m' hm')
    exact (List.mem_cons.mp hmem).resolve_left hba
  · apply hes.congr
    intro b hb
    rw [hkeep b (hne_of b (List.mem_append_left ks hb))]
    exact hrel.entry b
  · rcases hleft i b hb with he | he
    · obtain ⟨e, hmem, hi⟩ := hends i b he
      exact ⟨e, List.mem_append_left _ hmem, hi⟩
    · exact ⟨n.entry, List.mem_append_right _ (List.mem_singleton_self _), he.symm⟩
  · rw [hused]
    exact (List.length_append ..).symm
  · rw [hused, ← hfull, h.used, hlen]
    omega
  · have hfreed : c₁.freed = c.freed := by rw [hrel.same]
    change c₁.freed = _
    rw [hfreed, h.freed, hfree]
    rfl
  · rw [hsame.lookup]
    exact hsome
  · rw [hused, ← hfull, h.used, hlen]
    omega

theorem insert (h : CacheHolds args c v) (hs : (CacheOp.insert key data).Safe args c) :
    ∃ rc c' v', cacheInsert args c key data = some (rc, c') ∧
      CacheSpec args v (.insert key data, .code rc) v' ∧ CacheHolds args c' v' := by
  unfold CacheOp.Safe at hs
  have hroom : ∃ c₁ v₁, (if c.used = args.size then cacheNodePurge args c else some (0, c)) =
      some (0, c₁) ∧ CacheHolds args c₁ v₁ ∧ v.Makes args v₁ ∧ c₁.Searchable args key ∧
      c₁.used ≠ args.size := by
    split_ifs at hs ⊢ with hfull
    · exact h.purge hs hfull
    · refine ⟨c, v, rfl, h, .room v ?_, hs, hfull⟩
      rw [← h.used]
      exact hfull
  obtain ⟨c₁, v₁, hpurge, h₁, hmakes, hs₁, hne⟩ := hroom
  obtain ⟨rc, c', v', hins, h', hcases⟩ := h₁.insertNode hs₁ hne data
  refine ⟨rc, c', v', ?_, ?_, h'⟩
  · unfold cacheInsert
    rw [hpurge]
    exact hins
  · rcases hcases with ⟨rfl, rfl⟩ | ⟨rfl, habsent, rfl⟩
    · exact .refuse v v' key data hmakes
    · exact .insert v v₁ key data hmakes habsent

/-! ## Retained nodes -/

theorem setCount (h : CacheHolds args c v) (hn : c.heap a = some n)
    (hk : args.keycmp n.key key = 0) (k : ℕ) :
    CacheHolds args { c with heap := Function.update c.heap a (some { n with retain := k }) }
      (v.setCount args.toKeyOps key k) := by
  obtain ⟨rs, ks, hl, hrs, hks⟩ := h.lists
  obtain ⟨cs, ends, hidx, hends⟩ := h.index
  let n' : CNode K V := { n with retain := k }
  let c' : DataCache K V := { c with heap := Function.update c.heap a (some n') }
  have hnext := DataCache.update_map (m := n') CNode.next hn rfl
  have hprev := DataCache.update_map (m := n') CNode.prev hn rfl
  have hcarries : ∀ as es, c.Carries as es →
      c'.Carries as (es.map (CacheView.recount args.toKeyOps key k)) := by
    intro as es hc
    have hpoint : ∀ b, (c'.heap b).map CNode.entry =
        ((c.heap b).map CNode.entry).map (CacheView.recount args.toKeyOps key k) := by
      intro b
      unfold CacheView.recount
      by_cases hb : b = a
      · subst hb
        change (Function.update c.heap b (some n') b).map CNode.entry = _
        rw [Function.update_self, hn]
        exact congrArg some (if_pos hk).symm
      · change (Function.update c.heap a (some n') b).map CNode.entry = _
        rw [Function.update_of_ne hb]
        cases hm : c.heap b with
        | none => rfl
        | some m =>
            have hne : args.keycmp m.key key ≠ 0 := by
              intro hmk
              apply hb
              exact hidx.distinct b a m n hm hn
                (args.keycmp_trans _ _ _ hmk (args.keycmp_symm _ _ hk))
            exact congrArg some (if_neg hne).symm
    unfold DataCache.Carries at hc ⊢
    have hmap := congrArg (List.map (Option.map (CacheView.recount args.toKeyOps key k))) hc
    rw [List.map_map, List.map_map] at hmap
    rw [List.map_map, List.map_congr_left fun b _ => hpoint b]
    exact hmap
  refine ⟨⟨rs, ks, ⟨hl.recent.congr (fun b _ => hnext b) (fun b _ => hprev b),
    hl.retained.congr fun b _ => hnext b, hl.nodup, fun b hb m hm => ?_, fun b m hm => ?_⟩,
    hcarries _ _ hrs, hcarries _ _ hks⟩, ⟨cs, ends, hidx.congr ⟨rfl, rfl, rfl, ?_⟩, hends⟩, ?_, h.size,
    h.freed, h.bytes⟩
  · have heq := hprev b
    change (c'.heap b).map _ = _ at heq
    rw [hm] at heq
    obtain ⟨m', hm', hpm⟩ := Option.map_eq_some_iff.mp heq.symm
    exact hpm.symm.trans (hl.front b hb m' hm')
  · have heq := hnext b
    change (c'.heap b).map _ = _ at heq
    rw [hm] at heq
    obtain ⟨m', hm', -⟩ := Option.map_eq_some_iff.mp heq.symm
    exact hl.mem b m' hm'
  · exact DataCache.update_map CNode.searched hn rfl
  · rw [h.used]
    unfold CacheView.entries CacheView.setCount
    rw [List.length_append, List.length_append, List.length_map, List.length_map]

theorem remove (h : CacheHolds args c v) (hs : (CacheOp.remove key : CacheOp K V).Safe args c) :
    ∃ rc c' v', cacheRemove args c key = some (rc, c') ∧
      CacheSpec args v (.remove key, .code rc) v' ∧ CacheHolds args c' v' := by
  rcases h.search hs.1 with ⟨s, a, n, hlook, hload, hn, hk, hfound⟩ | ⟨s, hlook, hload, habsent⟩
  · have hpos := hs.2 n hfound
    refine ⟨-2, c, v, ?_, .busy v key n.entry (h.mem_entries hn) hk hpos, h⟩
    simp only [cacheRemove, hlook, hload, hn, Option.bind_eq_bind, Option.bind_some, Option.pure_def,
      gt_iff_lt, if_pos hpos]
  · refine ⟨-1, c, v, ?_, .missing v key habsent, h⟩
    simp only [cacheRemove, hlook, hload, Option.bind_eq_bind, Option.bind_some, Option.pure_def]

theorem release (h : CacheHolds args c v) (hs : (CacheOp.release key : CacheOp K V).Safe args c) :
    ∃ rc c' v', cacheRelease args c key = some (rc, c') ∧
      CacheSpec args v (.release key, .code rc) v' ∧ CacheHolds args c' v' := by
  rcases h.search hs.1 with ⟨s, a, n, hlook, hload, hn, hk, hfound⟩ | ⟨s, hlook, hload, habsent⟩
  · have hne := hs.2 n hfound
    refine ⟨0, _, _, ?_, .release v key n.entry (h.mem_entries hn) hk hne,
      h.setCount hn hk ((n.retain + 2 ^ 64 - 1) % 2 ^ 64)⟩
    simp only [cacheRelease, hlook, hload, hn, DataCache.modify_eq hn, Option.bind_eq_bind,
      Option.bind_some, Option.pure_def, if_neg hne]
  · refine ⟨-1, c, v, ?_, .noRelease v key habsent, h⟩
    simp only [cacheRelease, hlook, hload, Option.bind_eq_bind, Option.bind_some, Option.pure_def]

/-- The first retention of a node between two others moves it to the other list. -/
theorem pin (h : CacheHolds args c v) (hn : c.heap a = some n) (hk : args.keycmp n.key key = 0)
    (hzero : n.retain = 0) (hprev : n.prev ≠ none) (hnext : n.next ≠ none) : ∃ c₁ c₂ c₃ v',
      c.modify a (fun m => { m with retain := (m.retain + 1) % 2 ^ 64 }) = some c₁ ∧
      cacheUnlink c₁ n = some c₂ ∧
      c₂.modify a (fun m => { m with prev := none, next := c₂.retained }) = some c₃ ∧
      CacheSpec args v (.retain key, .data (some n.data)) v' ∧
      CacheHolds args { c₃ with retained := some a } v' := by
  obtain ⟨rs, ks, hl, hrs, hks⟩ := h.lists
  obtain ⟨cs, ends, hidx, hends⟩ := h.index
  have ha : a ∈ rs := by
    rcases List.mem_append.mp (hl.mem a n hn) with ha | ha
    · exact ha
    · exact absurd (hl.front a ha n hn) hprev
  let n₁ : CNode K V := { n with retain := 1 }
  let c₁ : DataCache K V := { c with heap := Function.update c.heap a (some n₁) }
  have hmod : c.modify a (fun m => { m with retain := (m.retain + 1) % 2 ^ 64 }) = some c₁ := by
    rw [DataCache.modify_eq hn, hzero]
    rfl
  have hn₁ : c₁.heap a = some n₁ := Function.update_self a (some n₁) c.heap
  have hkeep₁ : ∀ b, b ≠ a → c₁.heap b = c.heap b := fun b hb => Function.update_of_ne hb _ _
  have hdoubly : (CNode.links K V).Doubly c₁.heap c₁.head c₁.tail rs :=
    hl.recent.congr (fun b _ => DataCache.update_map (m := n₁) CNode.next hn rfl b)
      (fun b _ => DataCache.update_map (m := n₁) CNode.prev hn rfl b)
  obtain ⟨as, bs, c₂, rfl, hunlink, hrel, hret, hdoubly₂, hrest⟩ :=
    DataCache.unlink_spec hdoubly ha hn₁ hprev hnext
  obtain ⟨l₁, l₂, hes, has, hbs⟩ := hrs.split hn
  have hperm : (as ++ a :: bs ++ ks).Perm (a :: (as ++ bs ++ ks)) := by
    exact List.perm_middle.append_right ks
  obtain ⟨hnot, hnd⟩ := List.nodup_cons.mp (hperm.nodup_iff.mp hl.nodup)
  have hnotas : a ∉ as ++ bs := fun hmem => hnot (List.mem_append_left ks hmem)
  have hn₂ : c₂.heap a = some n₁ := (hrest a hnotas).trans hn₁
  let n₃ : CNode K V := { n₁ with prev := none, next := c₂.retained }
  let c₃ : DataCache K V := { c₂ with heap := Function.update c₂.heap a (some n₃) }
  have hn₃ : c₃.heap a = some n₃ := Function.update_self a (some n₃) c₂.heap
  have hkeep₃ : ∀ b, b ≠ a → c₃.heap b = c₂.heap b := fun b hb => Function.update_of_ne hb _ _
  have hne : ∀ b ∈ as ++ bs ++ ks, b ≠ a := fun b hb he => hnot (he ▸ hb)
  have hks_keep : ∀ b ∈ ks, c₃.heap b = c.heap b := fun b hb => by
    have hba := hne b (List.mem_append_right _ hb)
    rw [hkeep₃ b hba, hrest b fun hmem => List.disjoint_of_nodup_append hnd hmem hb, hkeep₁ b hba]
  have hentry : ∀ b ∈ as ++ bs, (c₃.heap b).map CNode.entry = (c.heap b).map CNode.entry :=
    fun b hb => by
      have hba := hne b (List.mem_append_left ks hb)
      rw [hkeep₃ b hba, hrel.entry b, hkeep₁ b hba]
  have hsame : DataCache.SameSearch c { c₃ with retained := some a } := by
    have hs := hrel.search
    refine ⟨hs.hashtable, hs.tableBytes, hs.fresh, fun b => ?_⟩
    change (c₃.heap b).map CNode.searched = _
    rw [DataCache.update_map (m := n₃) CNode.searched hn₂ rfl b, hs.searched b]
    exact DataCache.update_map (m := n₁) CNode.searched hn rfl b
  refine ⟨c₁, c₂, c₃, ⟨l₁ ++ l₂, { n.entry with count := 1 } :: v.retained, v.left⟩, hmod, hunlink,
    DataCache.modify_eq hn₂ _, .pin v key l₁ l₂ n.entry hes hk hzero, ⟨⟨as ++ bs, a :: ks,
      ⟨hdoubly₂.congr_eq fun b hb => hkeep₃ b (hne b (List.mem_append_left ks hb)),
        ⟨rfl, n₃, hn₃, ?_⟩, ?_, fun b hb m hm => ?_, fun b m hm => ?_⟩, ?_, ?_⟩,
      ⟨cs, ends, hidx.congr hsame, hends⟩, ?_, ?_, ?_, hsame.tableBytes.trans h.bytes⟩⟩
  · change (CNode.links K V).next.Path c₃.heap c₂.retained ks none
    rw [hret]
    exact hl.retained.congr_eq hks_keep
  · exact (List.perm_middle.nodup_iff).mpr (List.nodup_cons.mpr ⟨hnot, hnd⟩)
  · rcases List.mem_cons.mp hb with rfl | hb
    · obtain rfl : n₃ = m := Option.some.inj (hn₃.symm.trans hm)
      rfl
    · have hm' : c₃.heap b = some m := hm
      rw [hks_keep b hb] at hm'
      exact hl.front b hb m hm'
  · have hmem : b ∈ a :: (as ++ bs ++ ks) := by
      by_cases hba : b = a
      · rw [hba]
        exact List.mem_cons_self
      · have heq := hrel.unlinked b
        rw [← hkeep₃ b hba, hkeep₁ b hba, show c₃.heap b = some m from hm] at heq
        obtain ⟨m', hm', -⟩ := Option.map_eq_some_iff.mp heq.symm
        exact hperm.mem_iff.mp (hl.mem b m' hm')
    exact List.perm_middle.mem_iff.mpr hmem
  · exact (DataCache.carries_append has hbs).congr hentry
  · have hcons := DataCache.carries_cons hn₃ (hks.congr_eq hks_keep)
    exact hcons
  · have hused : c₂.used = c.used := by rw [hrel.same]
    change c₂.used = _
    rw [hused, h.used]
    unfold CacheView.entries
    rw [hes]
    simp only [List.length_append, List.length_cons]
    omega
  · have hused : c₂.used = c.used := by rw [hrel.same]
    change c₂.used ≤ _
    rw [hused]
    exact h.size
  · have hfreed : c₂.freed = c.freed := by rw [hrel.same]
    change c₂.freed = _
    rw [hfreed]
    exact h.freed

theorem retain (h : CacheHolds args c v) (hs : (CacheOp.retain key : CacheOp K V).Safe args c) :
    ∃ p c' v', cacheRetain args c key = some (p, c') ∧
      CacheSpec args v (.retain key, .data p) v' ∧ CacheHolds args c' v' := by
  rcases h.search hs.1 with ⟨s, a, n, hlook, hload, hn, hk, hfound⟩ | ⟨s, hlook, hload, habsent⟩
  · by_cases hzero : n.retain = 0
    · obtain ⟨hprev, hnext⟩ := hs.2 n hfound hzero
      obtain ⟨c₁, c₂, c₃, v', hmod, hunlink, hmod', hspec, h'⟩ := h.pin hn hk hzero hprev hnext
      refine ⟨some n.data, { c₃ with retained := some a }, v', ?_, hspec, h'⟩
      simp only [cacheRetain, hlook, hload, hn, hmod, hunlink, hmod', Option.bind_eq_bind,
        Option.bind_some, Option.pure_def, if_pos hzero]
    · refine ⟨some n.data, _, _, ?_, .retain v key n.entry (h.mem_entries hn) hk hzero,
        h.setCount hn hk ((n.retain + 1) % 2 ^ 64)⟩
      simp only [cacheRetain, hlook, hload, hn, DataCache.modify_eq hn, Option.bind_eq_bind,
        Option.bind_some, Option.pure_def, if_neg hzero]
  · refine ⟨none, c, v, ?_, .noRetain v key habsent, h⟩
    simp only [cacheRetain, hlook, hload, Option.bind_eq_bind, Option.bind_some, Option.pure_def]

/-! ## Clearing -/

variable (args) in
theorem clearLoop (hpath : (CNode.links K V).next.Chain c.heap c.head rs) (hnd : rs.Nodup)
    {es : List (CacheEntry K V)} (hes : c.Carries rs es) (hused : rs.length ≤ c.used) {fuel : ℕ}
    (hfuel : rs.length ≤ fuel) : ∃ c', cacheClearLoop args fuel c = some c' ∧
      c' = { c with
        head := none, used := c.used - rs.length, heap := c'.heap,
        freed := if args.freeFunc then c.freed ++ es.map CacheEntry.data else c.freed } ∧
      (∀ a ∈ rs, c'.heap a = none) ∧ ∀ a ∉ rs, c'.heap a = c.heap a := by
  induction rs generalizing c es fuel with
  | nil =>
      obtain rfl : es = [] := List.eq_nil_of_length_eq_zero hes.length.symm
      have hhead : c.head = none := hpath
      refine ⟨c, ?_, ?_, fun _ ha => (nomatch ha), fun _ _ => rfl⟩
      · cases fuel with
        | zero => exact if_pos hhead
        | succ fuel =>
            unfold cacheClearLoop
            rw [hhead]
      · simp only [List.map_nil, List.append_nil, ite_self, List.length_nil, Nat.sub_zero, ← hhead]
  | cons a rs ih =>
      obtain ⟨hhead, n, hn, hrest⟩ := hpath
      obtain ⟨hnot, hnd⟩ := List.nodup_cons.mp hnd
      have hcons : c.Carries ([] ++ a :: rs) es := hes
      obtain ⟨l₁, es', rfl, hnil, hes'⟩ := hcons.split hn
      obtain rfl : l₁ = [] := List.eq_nil_of_length_eq_zero hnil.length.symm
      rw [List.length_cons] at hused hfuel
      obtain ⟨fuel, rfl⟩ := Nat.exists_eq_succ_of_ne_zero (Nat.ne_of_gt (Nat.zero_lt_of_lt hfuel))
      let c₁ : DataCache K V := { c with
        head := n.next, heap := Function.update c.heap a none, used := sub64 c.used 1,
        freed := if args.freeFunc then c.freed ++ [n.data] else c.freed }
      have hkeep : ∀ b, b ≠ a → c₁.heap b = c.heap b := fun b hb => Function.update_of_ne hb _ _
      have hne : ∀ b ∈ rs, b ≠ a := fun b hb he => hnot (he ▸ hb)
      have hused₁ : c₁.used = c.used - 1 := sub64_eq (by omega)
      obtain ⟨c', hloop, hc', hdead, hsame⟩ := ih (c := c₁)
        (hrest.congr_eq fun b hb => hkeep b (hne b hb)) hnd
        (hes'.congr_eq fun b hb => hkeep b (hne b hb)) (by rw [hused₁]; omega)
        (Nat.le_of_succ_le_succ hfuel)
      refine ⟨c', ?_, ?_, fun b hb => ?_, fun b hb => ?_⟩
      · unfold cacheClearLoop
        simp only [hhead, hn, cacheHtRemove, cacheNodeFree, Option.bind_eq_bind, Option.bind_some,
          Option.pure_def]
        exact hloop
      · rw [hc', hused₁, List.length_cons, Nat.sub_sub, Nat.add_comm 1, List.nil_append,
          List.map_cons]
        cases hf : args.freeFunc with
        | true => simp [c₁, hf, CNode.entry]
        | false => simp [c₁, hf]
      · rcases List.mem_cons.mp hb with rfl | hb
        · rw [hsame b hnot]
          exact Function.update_self b none c.heap
        · exact hdead b hb
      · rw [List.mem_cons, not_or] at hb
        rw [hsame b hb.2, hkeep b hb.1]

theorem clear (h : CacheHolds args c v) : ∃ rc c' v', cacheClear args c = some (rc, c') ∧
    CacheSpec args v (.clear, .code rc) v' ∧ CacheHolds args c' v' := by
  obtain ⟨rs, ks, hl, hrs, hks⟩ := h.lists
  obtain ⟨cs, ends, hidx, hends⟩ := h.index
  cases hret : c.retained with
  | some a =>
      refine ⟨-1, c, v, ?_, .keep v ?_, h⟩
      · unfold cacheClear
        rw [hret]
        rfl
      · intro hnil
        have hstart := hl.retained.start_eq_head
        rw [hnil] at hks
        obtain rfl : ks = [] := List.eq_nil_of_length_eq_zero hks.length
        rw [hret] at hstart
        cases hstart
  | none =>
      obtain rfl : ks = [] := by
        have hstart := hl.retained.start_eq_head
        rw [hret] at hstart
        exact List.head?_eq_none_iff.mp hstart.symm
      have hnil : v.retained = [] := List.eq_nil_of_length_eq_zero hks.length.symm
      have hlen : c.used = rs.length := by
        rw [h.used, hrs.length]
        unfold CacheView.entries
        rw [hnil, List.append_nil]
      have hfuel := hidx.length_le_fresh (fun a ha => hl.recent.next.alive ha) hl.recent.nodup
      obtain ⟨c', hloop, hc', hdead, hsame⟩ := clearLoop args hl.recent.next
        hl.recent.nodup hrs (Nat.le_of_eq hlen.symm) hfuel
      have hheap : c'.heap = fun _ => none := by
        funext a
        by_cases ha : a ∈ rs
        · exact hdead a ha
        · rw [hsame a ha]
          by_contra hsome
          obtain ⟨n, hn⟩ := Option.ne_none_iff_exists'.mp hsome
          have hmem := hl.mem a n hn
          rw [List.append_nil] at hmem
          exact ha hmem
      let c₁ : DataCache K V := { c' with tail := none }
      have hidx₁ := hidx.clear (show c₁.heap = fun _ => none from hheap)
        (by change c'.hashtable = _; rw [hc'])
        (by change c'.fresh = _; rw [hc'])
      refine ⟨0, c₁, ⟨[], [], v.left ++ v.recent⟩, ?_, .clear v hnil,
        ⟨⟨[], [], ⟨?_, ?_, List.nodup_nil, fun _ ha => (nomatch ha), fun a n hn => ?_⟩, rfl, rfl⟩,
        ⟨_, _, hidx₁, fun i a ha => ?_⟩, ?_, ?_, ?_, ?_⟩⟩
      · unfold cacheClear
        rw [hret]
        simp only [ne_eq, not_true_eq_false, if_false, hloop, Option.bind_eq_bind, Option.bind_some,
          Option.pure_def]
        rfl
      · have hhead : c₁.head = none := by
          change c'.head = none
          rw [hc']
        rw [hhead]
        exact LinkPair.Doubly.nil _ _
      · change c'.retained = none
        rw [hc']
        exact hret
      · rw [show c₁.heap = fun _ => none from hheap] at hn
        cases hn
      · split_ifs at ha with hi
        have hch := hidx.chain i hi
        cases hcs : cs i with
        | nil =>
            rw [hcs, ha] at hch
            obtain ⟨e, he, hei⟩ := hends i a hch.symm
            exact ⟨e, List.mem_append_left _ he, hei⟩
        | cons b bs =>
            rw [hcs] at hch
            obtain ⟨-, n, hn, -⟩ := hch
            have hmem := h.mem_entries hn
            unfold CacheView.entries at hmem
            rw [hnil, List.append_nil] at hmem
            refine ⟨n.entry, List.mem_append_right _ hmem, ?_⟩
            exact hidx.home i hi b (by rw [hcs]; exact List.mem_cons_self) n hn
      · change c'.used = 0
        rw [hc', hlen]
        exact Nat.sub_self _
      · change c'.used ≤ args.size
        rw [hc', hlen]
        change rs.length - rs.length ≤ args.size
        omega
      · change c'.freed = _
        rw [hc']
        cases hf : args.freeFunc with
        | true => simp [h.freed, hf]
        | false => simp [h.freed, hf]
      · change c'.tableBytes = _
        rw [hc']
        exact h.bytes

end CacheHolds

theorem cacheStep_holds (h : CacheHolds args c v) {op : CacheOp K V} (hs : op.Safe args c) :
    ∃ r c' v', cacheStep args c op = some (r, c') ∧ CacheSpec args v (op, r) v' ∧
      CacheHolds args c' v' := by
  cases op with
  | insert key data =>
      obtain ⟨rc, c', v', hop, hspec, h'⟩ := h.insert hs
      refine ⟨.code rc, c', v', ?_, hspec, h'⟩
      simp only [cacheStep, hop, Option.bind_eq_bind, Option.bind_some, Option.pure_def]
  | remove key =>
      obtain ⟨rc, c', v', hop, hspec, h'⟩ := h.remove hs
      refine ⟨.code rc, c', v', ?_, hspec, h'⟩
      simp only [cacheStep, hop, Option.bind_eq_bind, Option.bind_some, Option.pure_def]
  | retain key =>
      obtain ⟨p, c', v', hop, hspec, h'⟩ := h.retain hs
      refine ⟨.data p, c', v', ?_, hspec, h'⟩
      simp only [cacheStep, hop, Option.bind_eq_bind, Option.bind_some, Option.pure_def]
  | release key =>
      obtain ⟨rc, c', v', hop, hspec, h'⟩ := h.release hs
      refine ⟨.code rc, c', v', ?_, hspec, h'⟩
      simp only [cacheStep, hop, Option.bind_eq_bind, Option.bind_some, Option.pure_def]
  | clear =>
      obtain ⟨rc, c', v', hop, hspec, h'⟩ := h.clear
      refine ⟨.code rc, c', v', ?_, hspec, h'⟩
      simp only [cacheStep, hop, Option.bind_eq_bind, Option.bind_some, Option.pure_def]

end Carthage
