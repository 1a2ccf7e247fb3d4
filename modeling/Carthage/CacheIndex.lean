import Carthage.CacheView
import Carthage.ChainedLookup
import Carthage.DoublyLinked

/-!
# Searching the cache

The chains of the hash table, for those buckets whose memory was null. A chain may end in the
address of a node that was freed: a search that gets there is stuck.
-/

namespace Carthage

variable {K V : Type} {args : CacheArgs K V} {c c' : DataCache K V} {cs : ℕ → List ℕ}
  {ends : ℕ → Option ℕ} {key : K} {data : V} {a i : ℕ} {n : CNode K V} {p q r : Option ℕ}
  {as mid : List ℕ}

theorem map_eq_of_map {α β γ : Type} {x y : Option α} {f : α → β}
    (h : x.map f = y.map f) (g : β → γ) : x.map (g ∘ f) = y.map (g ∘ f) := by
  rw [← Option.map_map, h, Option.map_map]

/-- The `hash` field as a link of chains. -/
def CNode.hashLink (K V : Type) : LinkField ℕ (CNode K V) where
  get := CNode.hash
  set q n := { n with hash := q }
  get_set _ _ := rfl

def CNode.entry (n : CNode K V) : CacheEntry K V := ⟨n.key, n.data, n.retain⟩

def CNode.searched (n : CNode K V) : Option ℕ × K := (n.hash, n.key)

/-- All of a node but the `hash` field. -/
def CNode.unhashed (n : CNode K V) : Option ℕ × Option ℕ × K × V × ℕ :=
  (n.next, n.prev, n.key, n.data, n.retain)

theorem CacheArgs.bucketOf_eq {k : K} (hk : args.keycmp k key = 0) :
    args.bucketOf k = args.bucketOf key := by
  unfold CacheArgs.bucketOf
  rw [args.hash_eq _ _ hk]

namespace DataCache

structure SameSearch (c c' : DataCache K V) : Prop where
  hashtable : c'.hashtable = c.hashtable
  tableBytes : c'.tableBytes = c.tableBytes
  fresh : c'.fresh = c.fresh
  searched : ∀ a, (c'.heap a).map CNode.searched = (c.heap a).map CNode.searched

/-- The buckets lead over the chains `cs` to `ends`, null or the address of a freed node; every
node is on the chain of its key, and no two keys are equal. -/
structure Indexed (args : CacheArgs K V) (c : DataCache K V) (cs : ℕ → List ℕ)
    (ends : ℕ → Option ℕ) : Prop where
  chain : ∀ i, args.uninit i = none →
    (CNode.hashLink K V).Path c.heap (c.hashtable i) (cs i) (ends i)
  nodup : ∀ i, (cs i).Nodup
  ended : ∀ i a, ends i = some a → c.heap a = none ∧ a < c.fresh
  home : ∀ i, args.uninit i = none → ∀ a ∈ cs i, ∀ n, c.heap a = some n →
    args.bucketOf n.key = i
  mem : ∀ a n, c.heap a = some n →
    args.uninit (args.bucketOf n.key) = none ∧ a ∈ cs (args.bucketOf n.key)
  range : ∀ a n, c.heap a = some n → 8 * args.bucketOf n.key + 8 ≤ c.tableBytes
  distinct : ∀ a b n m, c.heap a = some n → c.heap b = some m → args.keycmp n.key m.key = 0 → a = b
  bound : ∀ a n, c.heap a = some n → a < c.fresh

/-! ## The walk -/

theorem SameSearch.hash (h : SameSearch c c') (a : ℕ) :
    (c'.heap a).map CNode.hash = (c.heap a).map CNode.hash :=
  map_eq_of_map (h.searched a) Prod.fst

theorem SameSearch.load (h : SameSearch c c') (s : Slot) : c'.load s = c.load s := by
  cases s with
  | bucket i =>
      unfold DataCache.load
      rw [h.hashtable, h.tableBytes]
  | next a => exact h.hash a

theorem SameSearch.walk (h : SameSearch c c') (key : K) (fuel : ℕ) (s : Slot) :
    c'.walk args key fuel s = c.walk args key fuel s := by
  induction fuel generalizing s with
  | zero => rfl
  | succ fuel ih =>
      unfold DataCache.walk
      rw [h.load s]
      cases c.load s with
      | none => rfl
      | some p =>
          cases p with
          | none => rfl
          | some a =>
              have ha := h.searched a
              simp only [Option.bind_eq_bind, Option.bind_some, ih]
              cases hc : c.heap a with
              | none =>
                  rw [hc] at ha
                  rw [Option.map_eq_none_iff.mp ha]
              | some n =>
                  rw [hc] at ha
                  obtain ⟨n', hn', heq⟩ := Option.map_eq_some_iff.mp ha
                  have hkey : n'.key = n.key := congrArg Prod.snd heq
                  rw [hn']
                  simp only [Option.bind_some, hkey]

theorem SameSearch.lookup (h : SameSearch c c') (key : K) :
    cacheHtLookup args c' key = cacheHtLookup args c key := by
  unfold cacheHtLookup
  rw [h.fresh]
  exact h.walk key _ _

theorem load_after (hb : c.load (.bucket i) = some p)
    (hp : (CNode.hashLink K V).Path c.heap p as q) : c.load (Slot.after i as) = some q := by
  rcases List.eq_nil_or_concat as with rfl | ⟨as, a, rfl⟩
  · obtain rfl : p = q := hp
    exact hb
  · rw [List.concat_eq_append] at hp ⊢
    obtain ⟨-, n, hn, hq⟩ := LinkField.path_concat.mp hp
    rw [Slot.after_concat, load, hn]
    exact congrArg some hq

theorem walk_stop (hb : c.load (.bucket i) = some p)
    (has : (CNode.hashLink K V).Path c.heap p as q)
    (hmid : (CNode.hashLink K V).Path c.heap q mid r)
    (hne : ∀ a ∈ mid, ∀ n, c.heap a = some n → args.keycmp n.key key ≠ 0)
    (hstop : r = none ∨ ∃ a n, r = some a ∧ c.heap a = some n ∧ args.keycmp n.key key = 0)
    {f : ℕ} (hf : mid.length < f) :
    c.walk args key f (Slot.after i as) = some (Slot.after i (as ++ mid)) := by
  induction mid generalizing as q f with
  | nil =>
      obtain ⟨f, rfl⟩ := Nat.exists_eq_succ_of_ne_zero (Nat.ne_of_gt hf)
      obtain rfl : q = r := hmid
      rw [List.append_nil, walk, load_after hb has]
      rcases hstop with rfl | ⟨a, n, rfl, hn, hk⟩
      · rfl
      · simp [hn, hk]
  | cons a mid ih =>
      obtain ⟨f, rfl⟩ := Nat.exists_eq_succ_of_ne_zero (Nat.ne_of_gt (Nat.zero_lt_of_lt hf))
      obtain ⟨rfl, n, hn, hmid⟩ := hmid
      have hk : args.keycmp n.key key ≠ 0 := hne a List.mem_cons_self n hn
      have has' : (CNode.hashLink K V).Path c.heap p (as ++ [a]) n.hash :=
        LinkField.path_concat.mpr ⟨has, n, hn, rfl⟩
      have hstep := ih has' hmid (fun b hb => hne b (List.mem_cons_of_mem a hb))
        (Nat.lt_of_succ_lt_succ hf)
      rw [Slot.after_concat, List.append_assoc] at hstep
      rw [walk, load_after hb has]
      simpa [hn, hk] using hstep

theorem walk_stuck (hb : c.load (.bucket i) = some p)
    (has : (CNode.hashLink K V).Path c.heap p as q)
    (hmid : (CNode.hashLink K V).Path c.heap q mid (some a))
    (hne : ∀ a ∈ mid, ∀ n, c.heap a = some n → args.keycmp n.key key ≠ 0)
    (hdead : c.heap a = none) (f : ℕ) : c.walk args key f (Slot.after i as) = none := by
  induction mid generalizing as q f with
  | nil =>
      cases f with
      | zero => rfl
      | succ f =>
          obtain rfl : q = some a := hmid
          rw [walk, load_after hb has]
          simp [hdead]
  | cons b mid ih =>
      cases f with
      | zero => rfl
      | succ f =>
          obtain ⟨rfl, n, hn, hmid⟩ := hmid
          have hk : args.keycmp n.key key ≠ 0 := hne b List.mem_cons_self n hn
          have has' : (CNode.hashLink K V).Path c.heap p (as ++ [b]) n.hash :=
            LinkField.path_concat.mpr ⟨has, n, hn, rfl⟩
          have hstep := ih has' hmid (fun b hb => hne b (List.mem_cons_of_mem _ hb)) f
          rw [Slot.after_concat] at hstep
          rw [walk, load_after hb has]
          simpa [hn, hk] using hstep

theorem range_of_lookup (hs : (cacheHtLookup args c key).isSome) :
    8 * args.bucketOf key + 8 ≤ c.tableBytes := by
  unfold cacheHtLookup walk load at hs
  by_contra hlt
  simp [hlt] at hs

theorem store_same {s : Slot} (hload : c.load s = some q) : c.store q s = some c := by
  cases s with
  | bucket i =>
      simp only [load, store] at hload ⊢
      split_ifs at hload ⊢ with hlt
      rw [← Option.some.inj hload, Function.update_eq_self]
  | next a =>
      obtain ⟨n, hn, rfl⟩ := Option.map_eq_some_iff.mp hload
      simp only [store, modify, hn, Option.bind_eq_bind, Option.bind_some, Option.pure_def]
      rw [← hn, Function.update_eq_self]

theorem store_after (hb : c.load (.bucket i) = some (c.hashtable i))
    (hp : (CNode.hashLink K V).Path c.heap (c.hashtable i) as r) (hnd : as.Nodup) (q : Option ℕ) :
    ∃ c', c.store q (Slot.after i as) = some c' ∧
      c' = { c with hashtable := c'.hashtable, heap := c'.heap } ∧
      (∀ j ≠ i, c'.hashtable j = c.hashtable j) ∧
      (CNode.hashLink K V).Path c'.heap (c'.hashtable i) as q ∧
      (∀ b ∉ as, c'.heap b = c.heap b) ∧
      ∀ b, (c'.heap b).map CNode.unhashed = (c.heap b).map CNode.unhashed := by
  rcases List.eq_nil_or_concat as with rfl | ⟨as, a, rfl⟩
  · have hlt : 8 * i + 8 ≤ c.tableBytes := by
      simp only [load] at hb
      split_ifs at hb with hlt
      exact hlt
    refine ⟨_, if_pos hlt, rfl, fun j hj => Function.update_of_ne hj _ _, ?_, fun _ _ => rfl,
      fun _ => rfl⟩
    exact Function.update_self i q c.hashtable
  · rw [List.concat_eq_append] at hp hnd ⊢
    have ha : a ∉ as := fun hmem =>
      List.disjoint_of_nodup_append hnd hmem (List.mem_singleton_self a)
    obtain ⟨-, n, hn, -⟩ := LinkField.path_concat.mp hp
    have hrelink : Function.update c.heap a (some { n with hash := q }) =
        (CNode.hashLink K V).relink c.heap a q := by
      unfold LinkField.relink
      rw [hn]
      rfl
    refine ⟨{ c with heap := Function.update c.heap a (some { n with hash := q }) }, ?_, rfl,
      fun _ _ => rfl, ?_, fun b hb => ?_, fun b => ?_⟩
    · rw [Slot.after_concat]
      simp only [store, modify, hn, Option.bind_eq_bind, Option.bind_some, Option.pure_def]
    · rw [hrelink]
      exact hp.relink_last ha
    · have hne : b ≠ a := by
        rintro rfl
        exact hb (List.mem_append_right as (List.mem_singleton_self b))
      exact Function.update_of_ne hne _ _
    · rw [hrelink]
      exact LinkField.relink_map CNode.unhashed (fun _ _ => rfl) b

namespace Indexed

theorem length_le_fresh (h : Indexed args c cs ends) (halive : ∀ a ∈ as, ∃ n, c.heap a = some n)
    (hnd : as.Nodup) : as.length ≤ c.fresh := by
  have hsub : as ⊆ List.range c.fresh := by
    intro a ha
    obtain ⟨n, hn⟩ := halive a ha
    exact List.mem_range.mpr (h.bound a n hn)
  simpa using (hnd.subperm hsub).length_le

theorem lookup_found (h : Indexed args c cs ends) (hn : c.heap a = some n)
    (hk : args.keycmp n.key key = 0) :
    ∃ s, cacheHtLookup args c key = some s ∧ c.load s = some (some a) := by
  have hhash : args.bucketOf n.key = args.bucketOf key := CacheArgs.bucketOf_eq hk
  obtain ⟨hinit, hmem⟩ := h.mem a n hn
  have hlt := h.range a n hn
  rw [hhash] at hinit hmem hlt
  have hb : c.load (.bucket (args.bucketOf key)) = some (c.hashtable (args.bucketOf key)) :=
    if_pos hlt
  have hch := h.chain _ hinit
  have hnd := h.nodup (args.bucketOf key)
  have hlen := h.length_le_fresh (fun a ha => hch.alive ha) hnd
  obtain ⟨pre, post, hsplit⟩ := List.append_of_mem hmem
  rw [hsplit] at hch hnd hlen
  obtain ⟨r, hpre, hr, -⟩ := LinkField.path_append.mp hch
  obtain rfl : r = some a := hr
  have hne : ∀ b ∈ pre, ∀ m, c.heap b = some m → args.keycmp m.key key ≠ 0 := by
    intro b hbmem m hm hkm
    obtain rfl := h.distinct b a m n hm hn (args.keycmp_trans _ _ _ hkm (args.keycmp_symm _ _ hk))
    exact List.disjoint_of_nodup_append hnd hbmem List.mem_cons_self
  have hlt : pre.length < c.fresh + 1 := by
    rw [List.length_append] at hlen
    omega
  have hnil : (CNode.hashLink K V).Path c.heap (c.hashtable (args.bucketOf key)) []
      (c.hashtable (args.bucketOf key)) := rfl
  exact ⟨_, walk_stop hb hnil hpre hne (Or.inr ⟨a, n, rfl, hn, hk⟩) hlt, load_after hb hpre⟩

theorem lookup_absent (h : Indexed args c cs ends) (hinit : args.uninit (args.bucketOf key) = none)
    (hlt : 8 * args.bucketOf key + 8 ≤ c.tableBytes) (hend : ends (args.bucketOf key) = none)
    (hne : ∀ a n, c.heap a = some n → args.keycmp n.key key ≠ 0) :
    cacheHtLookup args c key = some (Slot.after (args.bucketOf key) (cs (args.bucketOf key))) ∧
      c.load (Slot.after (args.bucketOf key) (cs (args.bucketOf key))) = some none := by
  have hb : c.load (.bucket (args.bucketOf key)) = some (c.hashtable (args.bucketOf key)) :=
    if_pos hlt
  have hch := h.chain _ hinit
  have hlen := h.length_le_fresh (fun a ha => hch.alive ha) (h.nodup (args.bucketOf key))
  have hnil : (CNode.hashLink K V).Path c.heap (c.hashtable (args.bucketOf key)) []
      (c.hashtable (args.bucketOf key)) := rfl
  rw [hend] at hch
  exact ⟨walk_stop hb hnil hch (fun b _ m hm => hne b m hm) (Or.inl rfl) (Nat.lt_succ_of_le hlen),
    load_after hb hch⟩

theorem lookup_cases (h : Indexed args c cs ends) (hinit : args.uninit (args.bucketOf key) = none)
    (hs : (cacheHtLookup args c key).isSome) :
    (∃ s a n, cacheHtLookup args c key = some s ∧ c.load s = some (some a) ∧
      c.heap a = some n ∧ args.keycmp n.key key = 0) ∨
    (cacheHtLookup args c key = some (Slot.after (args.bucketOf key) (cs (args.bucketOf key))) ∧
      c.load (Slot.after (args.bucketOf key) (cs (args.bucketOf key))) = some none ∧
      ends (args.bucketOf key) = none ∧
      ∀ a n, c.heap a = some n → args.keycmp n.key key ≠ 0) := by
  by_cases hex : ∃ a n, c.heap a = some n ∧ args.keycmp n.key key = 0
  · obtain ⟨a, n, hn, hk⟩ := hex
    obtain ⟨s, hlook, hload⟩ := h.lookup_found hn hk
    exact Or.inl ⟨s, a, n, hlook, hload, hn, hk⟩
  · push Not at hex
    right
    have hlt := range_of_lookup hs
    have hend : ends (args.bucketOf key) = none := by
      cases he : ends (args.bucketOf key) with
      | none => rfl
      | some v =>
          have hb : c.load (.bucket (args.bucketOf key)) =
            some (c.hashtable (args.bucketOf key)) := if_pos hlt
          have hnil : (CNode.hashLink K V).Path c.heap (c.hashtable (args.bucketOf key)) []
            (c.hashtable (args.bucketOf key)) := rfl
          have hch := h.chain _ hinit
          rw [he] at hch
          have hstuck : c.walk args key (c.fresh + 1) (Slot.after (args.bucketOf key) []) = none :=
            walk_stuck hb hnil hch (fun b _ m hm => hex b m hm) (h.ended _ v he).1 (c.fresh + 1)
          rw [Slot.after_nil] at hstuck
          unfold cacheHtLookup at hs
          rw [hstuck] at hs
          cases hs
    obtain ⟨hlook, hload⟩ := h.lookup_absent hinit hlt hend hex
    exact ⟨hlook, hload, hend, hex⟩

/-! ## Changes -/

theorem congr (h : Indexed args c cs ends) (hsame : SameSearch c c') :
    Indexed args c' cs ends := by
  have hback : ∀ a n', c'.heap a = some n' → ∃ n, c.heap a = some n ∧ n'.key = n.key := by
    intro a n' hn'
    have ha := hsame.searched a
    rw [hn'] at ha
    obtain ⟨n, hn, heq⟩ := Option.map_eq_some_iff.mp ha.symm
    exact ⟨n, hn, (congrArg Prod.snd heq).symm⟩
  refine ⟨fun i hi => ?_, h.nodup, fun i a ha => ?_, fun i hi a ha n' hn' => ?_,
    fun a n' hn' => ?_, fun a n' hn' => ?_, ?_, fun a n' hn' => ?_⟩
  · rw [hsame.hashtable]
    exact (h.chain i hi).congr (fun a _ => hsame.hash a)
  · obtain ⟨hdead, hlt⟩ := h.ended i a ha
    have heq := hsame.searched a
    rw [hdead] at heq
    rw [hsame.fresh]
    exact ⟨Option.map_eq_none_iff.mp heq, hlt⟩
  · obtain ⟨n, hn, hkey⟩ := hback a n' hn'
    rw [hkey]
    exact h.home i hi a ha n hn
  · obtain ⟨n, hn, hkey⟩ := hback a n' hn'
    rw [hkey]
    exact h.mem a n hn
  · obtain ⟨n, hn, hkey⟩ := hback a n' hn'
    rw [hkey, hsame.tableBytes]
    exact h.range a n hn
  · intro a b n' m' hn' hm' hk
    obtain ⟨n, hn, hkey⟩ := hback a n' hn'
    obtain ⟨m, hm, hkey'⟩ := hback b m' hm'
    rw [hkey, hkey'] at hk
    exact h.distinct a b n m hn hm hk
  · obtain ⟨n, hn, -⟩ := hback a n' hn'
    rw [hsame.fresh]
    exact h.bound a n hn

theorem notMem_of_ne (h : Indexed args c cs ends) {j : ℕ} (hij : i ≠ j)
    (hi : args.uninit i = none) (hj : args.uninit j = none) (ha : a ∈ cs i) : a ∉ cs j := by
  intro ha'
  obtain ⟨n, hn⟩ := (h.chain i hi).alive ha
  exact hij ((h.home i hi a ha n hn).symm.trans (h.home j hj a ha' n hn))

/-- Freeing the last node of a chain leaves its address behind. -/
theorem drop (h : Indexed args c cs ends) (hn : c.heap a = some n) (hhash : n.hash = none)
    (htable : c'.hashtable = c.hashtable) (hbytes : c'.tableBytes = c.tableBytes)
    (hfresh : c'.fresh = c.fresh) (hdead : c'.heap a = none)
    (hrest : ∀ b ≠ a, (c'.heap b).map CNode.searched = (c.heap b).map CNode.searched) :
    ∃ cs' ends', Indexed args c' cs' ends' ∧
      ∀ i b, ends' i = some b → ends i = some b ∨ i = args.bucketOf n.key := by
  obtain ⟨hinit, hmem⟩ := h.mem a n hn
  have hback : ∀ b m', c'.heap b = some m' → b ≠ a ∧ ∃ m, c.heap b = some m ∧ m'.key = m.key := by
    intro b m' hm'
    have hne : b ≠ a := by
      rintro rfl
      simp [hdead] at hm'
    have hb := hrest b hne
    rw [hm'] at hb
    obtain ⟨m, hm, heq⟩ := Option.map_eq_some_iff.mp hb.symm
    exact ⟨hne, m, hm, (congrArg Prod.snd heq).symm⟩
  obtain ⟨pre, hsplit, hpre⟩ : ∃ pre, cs (args.bucketOf n.key) = pre ++ [a] ∧
      (CNode.hashLink K V).Path c.heap (c.hashtable (args.bucketOf n.key)) pre (some a) := by
    obtain ⟨pre, post, hsplit⟩ := List.append_of_mem hmem
    have hch := h.chain _ hinit
    rw [hsplit] at hch
    obtain ⟨r, hpre, hr, n', hn', hpost⟩ := LinkField.path_append.mp hch
    obtain rfl : r = some a := hr
    obtain rfl := Option.some.inj (hn.symm.trans hn')
    have hnil : post = [] := by
      cases post with
      | nil => rfl
      | cons b post =>
          have hb := hpost.1
          rw [show (CNode.hashLink K V).get n = n.hash from rfl, hhash] at hb
          cases hb
    rw [hnil] at hsplit
    exact ⟨pre, hsplit, hpre⟩
  have hnd := h.nodup (args.bucketOf n.key)
  rw [hsplit] at hnd
  have hpre_ne : ∀ b ∈ pre, b ≠ a := fun b hb he =>
    List.disjoint_of_nodup_append hnd hb (he ▸ List.mem_singleton_self a)
  have hkeep : ∀ p as q, (CNode.hashLink K V).Path c.heap p as q → (∀ b ∈ as, b ≠ a) →
      (CNode.hashLink K V).Path c'.heap p as q := by
    intro p as q hp hne
    apply hp.congr
    intro b hb
    exact map_eq_of_map (hrest b (hne b hb)) Prod.fst
  refine ⟨Function.update cs (args.bucketOf n.key) pre,
    Function.update ends (args.bucketOf n.key) (some a), ⟨fun i hi => ?_, fun i => ?_,
    fun i b hb => ?_, fun i hi b hb m' hm' => ?_, fun b m' hm' => ?_, fun b m' hm' => ?_,
    ?_, fun b m' hm' => ?_⟩,
    fun i b hb => ?_⟩
  · rw [htable]
    by_cases hib : i = args.bucketOf n.key
    · subst hib
      rw [Function.update_self, Function.update_self]
      exact hkeep _ _ _ hpre hpre_ne
    · rw [Function.update_of_ne hib, Function.update_of_ne hib]
      apply hkeep _ _ _ (h.chain i hi)
      rintro b hb rfl
      exact h.notMem_of_ne hib hi hinit hb hmem
  · by_cases hib : i = args.bucketOf n.key
    · subst hib
      rw [Function.update_self]
      exact (List.nodup_append.mp hnd).1
    · rw [Function.update_of_ne hib]
      exact h.nodup i
  · rw [hfresh]
    by_cases hib : i = args.bucketOf n.key
    · subst hib
      rw [Function.update_self] at hb
      obtain rfl := Option.some.inj hb
      exact ⟨hdead, h.bound a n hn⟩
    · rw [Function.update_of_ne hib] at hb
      obtain ⟨hbdead, hlt⟩ := h.ended i b hb
      refine ⟨?_, hlt⟩
      by_cases hba : b = a
      · rw [hba]
        exact hdead
      · have heq := hrest b hba
        rw [hbdead] at heq
        exact Option.map_eq_none_iff.mp heq
  · obtain ⟨hne, m, hm, hkey⟩ := hback b m' hm'
    rw [hkey]
    by_cases hib : i = args.bucketOf n.key
    · subst hib
      rw [Function.update_self] at hb
      exact h.home _ hinit b (by rw [hsplit]; exact List.mem_append_left _ hb) m hm
    · rw [Function.update_of_ne hib] at hb
      exact h.home i hi b hb m hm
  · obtain ⟨hne, m, hm, hkey⟩ := hback b m' hm'
    rw [hkey]
    obtain ⟨hinit', hmem'⟩ := h.mem b m hm
    refine ⟨hinit', ?_⟩
    by_cases hib : args.bucketOf m.key = args.bucketOf n.key
    · rw [hib, hsplit] at hmem'
      rw [hib, Function.update_self]
      rcases List.mem_append.mp hmem' with hb | hb
      · exact hb
      · exact absurd (List.mem_singleton.mp hb) hne
    · rw [Function.update_of_ne hib]
      exact hmem'
  · obtain ⟨-, m, hm, hkey⟩ := hback b m' hm'
    rw [hkey, hbytes]
    exact h.range b m hm
  · intro b d m' o' hm' ho' hk
    obtain ⟨-, m, hm, hkey⟩ := hback b m' hm'
    obtain ⟨-, o, ho, hkey'⟩ := hback d o' ho'
    rw [hkey, hkey'] at hk
    exact h.distinct b d m o hm ho hk
  · obtain ⟨-, m, hm, -⟩ := hback b m' hm'
    rw [hfresh]
    exact h.bound b m hm
  · by_cases hib : i = args.bucketOf n.key
    · exact Or.inr hib
    · rw [Function.update_of_ne hib] at hb
      exact Or.inl hb

/-- A new key is linked behind the last node of its chain. -/
theorem htInsert (h : Indexed args c cs ends) (data : V)
    (hinit : args.uninit (args.bucketOf key) = none)
    (hlook : cacheHtLookup args c key =
      some (Slot.after (args.bucketOf key) (cs (args.bucketOf key))))
    (hload : c.load (Slot.after (args.bucketOf key) (cs (args.bucketOf key))) = some none)
    (hend : ends (args.bucketOf key) = none)
    (hne : ∀ a n, c.heap a = some n → args.keycmp n.key key ≠ 0) : ∃ node c' cs',
      cacheHtInsert args c key data = some (node, c') ∧ Indexed args c' cs' ends ∧
      (node = none ∧ c' = { c with requests := c.requests + 1 } ∨
        node = some c.fresh ∧
        c' = { c with
          used := c.used + 1, fresh := c.fresh + 1, requests := c.requests + 1,
          hashtable := c'.hashtable, heap := c'.heap } ∧
        (∃ n, c'.heap c.fresh = some n ∧ n.entry = ⟨key, data, 0⟩) ∧
        ∀ b ≠ c.fresh, (c'.heap b).map CNode.unhashed = (c.heap b).map CNode.unhashed) := by
  have hsome : (cacheHtLookup args c key).isSome := by
    rw [hlook]
    rfl
  have hlt := range_of_lookup hsome
  have hb : c.load (.bucket (args.bucketOf key)) = some (c.hashtable (args.bucketOf key)) :=
    if_pos hlt
  have hch := h.chain _ hinit
  have hnd := h.nodup (args.bucketOf key)
  have hfresh : c.heap c.fresh = none := by
    by_contra hsome
    obtain ⟨n, hn⟩ := Option.ne_none_iff_exists'.mp hsome
    exact Nat.lt_irrefl _ (h.bound _ n hn)
  have hnew : ∀ i, args.uninit i = none → c.fresh ∉ cs i := by
    intro i hi hmem
    obtain ⟨n, hn⟩ := (h.chain i hi).alive hmem
    rw [hfresh] at hn
    cases hn
  by_cases hg : args.granted c.requests = true
  · let n₀ : CNode K V := ⟨none, none, none, key, data, 0⟩
    let c₁ : DataCache K V := { c with
      fresh := c.fresh + 1, requests := c.requests + 1,
      heap := Function.update c.heap c.fresh (some n₀) }
    have hkeep : ∀ b, b ≠ c.fresh → c₁.heap b = c.heap b := fun b hb => Function.update_of_ne hb _ _
    have hch₁ : (CNode.hashLink K V).Path c₁.heap (c₁.hashtable (args.bucketOf key))
        (cs (args.bucketOf key)) (ends (args.bucketOf key)) := by
      apply hch.congr_eq
      intro b hmem
      exact hkeep b fun he => hnew _ hinit (he ▸ hmem)
    obtain ⟨c', hstore, hc', htable, hpath, hrest, hunhashed⟩ :=
      store_after (c := c₁) hb hch₁ hnd (some c.fresh)
    have hnode : c'.heap c.fresh = some n₀ := by
      rw [hrest c.fresh (hnew _ hinit)]
      exact Function.update_self c.fresh (some n₀) c.heap
    have hback : ∀ b m, c'.heap b = some m → b = c.fresh ∧ m = n₀ ∨
        ∃ m', c.heap b = some m' ∧ m.key = m'.key := by
      intro b m hm
      by_cases hbf : b = c.fresh
      · subst hbf
        exact Or.inl ⟨rfl, Option.some.inj (hm.symm.trans hnode)⟩
      · right
        have heq := hunhashed b
        rw [hm, hkeep b hbf] at heq
        obtain ⟨m', hm', heq'⟩ := Option.map_eq_some_iff.mp heq.symm
        exact ⟨m', hm', (congrArg (fun x => x.2.2.1) heq').symm⟩
    refine ⟨some c.fresh, { c' with used := c'.used + 1 },
      Function.update cs (args.bucketOf key) (cs (args.bucketOf key) ++ [c.fresh]), ?_,
      ⟨fun i hi => ?_, fun i => ?_, fun i b hb => ?_, fun i hi b hb m hm => ?_, fun b m hm => ?_,
        fun b m hm => ?_, ?_, fun b m hm => ?_⟩, Or.inr ⟨rfl, ?_, ⟨n₀, hnode, rfl⟩, fun b hb => ?_⟩⟩
    · simp only [cacheHtInsert, hlook, hload, Option.bind_eq_bind, Option.bind_some, cacheNodeAlloc,
        if_pos hg, Option.pure_def]
      rw [show c₁ = _ from rfl] at hstore
      rw [hstore]
      rfl
    · by_cases hib : i = args.bucketOf key
      · subst hib
        rw [Function.update_self, hend]
        exact LinkField.path_concat.mpr ⟨hpath, n₀, hnode, rfl⟩
      · rw [Function.update_of_ne hib]
        change (CNode.hashLink K V).Path c'.heap (c'.hashtable i) (cs i) (ends i)
        rw [htable i hib]
        apply (h.chain i hi).congr_eq
        intro b hmem
        rw [hrest b (h.notMem_of_ne hib hi hinit hmem)]
        exact hkeep b fun he => hnew i hi (he ▸ hmem)
    · by_cases hib : i = args.bucketOf key
      · subst hib
        rw [Function.update_self]
        exact List.nodup_append_comm.mp (List.nodup_cons.mpr ⟨hnew _ hinit, hnd⟩)
      · rw [Function.update_of_ne hib]
        exact h.nodup i
    · obtain ⟨hdead, hlt⟩ := h.ended i b hb
      have hbf : b ≠ c.fresh := Nat.ne_of_lt hlt
      have heq := hunhashed b
      rw [hkeep b hbf, hdead] at heq
      refine ⟨Option.map_eq_none_iff.mp heq, ?_⟩
      rw [hc']
      exact Nat.lt_succ_of_lt hlt
    · rcases hback b m hm with ⟨rfl, rfl⟩ | ⟨m', hm', hkey⟩
      · by_cases hib : i = args.bucketOf key
        · exact hib.symm
        · rw [Function.update_of_ne hib] at hb
          exact absurd hb (hnew i hi)
      · rw [hkey]
        by_cases hib : i = args.bucketOf key
        · subst hib
          rw [Function.update_self] at hb
          rcases List.mem_append.mp hb with hb | hb
          · exact h.home _ hi b hb m' hm'
          · rw [List.mem_singleton.mp hb, hfresh] at hm'
            cases hm'
        · rw [Function.update_of_ne hib] at hb
          exact h.home i hi b hb m' hm'
    · rcases hback b m hm with ⟨rfl, rfl⟩ | ⟨m', hm', hkey⟩
      · refine ⟨hinit, ?_⟩
        rw [Function.update_self]
        exact List.mem_append_right _ (List.mem_singleton_self _)
      · obtain ⟨hinit', hmem⟩ := h.mem b m' hm'
        rw [hkey]
        refine ⟨hinit', ?_⟩
        by_cases hib : args.bucketOf m'.key = args.bucketOf key
        · rw [hib] at hmem ⊢
          rw [Function.update_self]
          exact List.mem_append_left _ hmem
        · rw [Function.update_of_ne hib]
          exact hmem
    · change _ ≤ c'.tableBytes
      rw [hc']
      rcases hback b m hm with ⟨rfl, rfl⟩ | ⟨m', hm', hkey⟩
      · exact hlt
      · rw [hkey]
        exact h.range b m' hm'
    · intro b d m o hm ho hk
      rcases hback b m hm with ⟨rfl, rfl⟩ | ⟨m', hm', hkey⟩
      · rcases hback d o ho with ⟨rfl, -⟩ | ⟨o', ho', hkey'⟩
        · rfl
        · rw [hkey'] at hk
          exact absurd (args.keycmp_symm _ _ hk) (hne d o' ho')
      · rw [hkey] at hk
        rcases hback d o ho with ⟨rfl, rfl⟩ | ⟨o', ho', hkey'⟩
        · exact absurd hk (hne b m' hm')
        · rw [hkey'] at hk
          exact h.distinct b d m' o' hm' ho' hk
    · change b < c'.fresh
      rw [hc']
      rcases hback b m hm with ⟨rfl, -⟩ | ⟨m', hm', -⟩
      · exact Nat.lt_succ_self _
      · exact Nat.lt_succ_of_lt (h.bound b m' hm')
    · rw [hc']
    · change (c'.heap b).map CNode.unhashed = _
      rw [hunhashed b, hkeep b hb]
  · refine ⟨none, { c with requests := c.requests + 1 }, cs, ?_, ?_, Or.inl ⟨rfl, rfl⟩⟩
    · simp only [cacheHtInsert, hlook, hload, Option.bind_eq_bind, Option.bind_some, cacheNodeAlloc,
        if_neg hg, Option.pure_def]
      have hsame : ({ c with requests := c.requests + 1 } : DataCache K V).load
          (Slot.after (args.bucketOf key) (cs (args.bucketOf key))) = some none := hload
      rw [store_same hsame]
      rfl
    · exact h.congr ⟨rfl, rfl, rfl, fun _ => rfl⟩

theorem clear (h : Indexed args c cs ends) (hheap : c'.heap = fun _ => none)
    (htable : c'.hashtable = c.hashtable) (hfresh : c'.fresh = c.fresh) :
    Indexed args c' (fun _ => [])
      (fun i => if args.uninit i = none then c.hashtable i else none) := by
  have hnone : ∀ a n, c'.heap a ≠ some n := by
    intro a n
    rw [hheap]
    exact (Option.some_ne_none n).symm
  refine ⟨fun i hi => ?_, fun _ => List.nodup_nil, fun i a ha => ?_, fun _ _ _ ha => (nomatch ha),
    fun a n hn => ?_, fun a n hn => ?_, ?_, fun a n hn => ?_⟩
  · rw [htable, if_pos hi]
    exact rfl
  · split_ifs at ha with hi
    rw [hheap, hfresh]
    refine ⟨rfl, ?_⟩
    have hch := h.chain i hi
    cases hcs : cs i with
    | nil =>
        rw [hcs, ha] at hch
        exact (h.ended i a hch.symm).2
    | cons b bs =>
        rw [hcs, ha] at hch
        obtain ⟨hb, n, hn, -⟩ := hch
        obtain rfl := Option.some.inj hb
        exact h.bound a n hn
  · exact absurd hn (hnone a n)
  · exact absurd hn (hnone a n)
  · intro a b n m hn
    exact absurd hn (hnone a n)
  · exact absurd hn (hnone a n)

end Indexed

end DataCache

end Carthage
