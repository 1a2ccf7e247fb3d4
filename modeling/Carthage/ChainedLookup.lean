import Carthage.KeyedList

/-!
# Lookup in a chained table

`Linked` says that the bucket array, the chains and the pool have the shape of
disjoint chains, `Placed` that every node is in the bucket of its hash and that no
two keys are equal. Under both the lookup loop ends, either at the slot that points
to the only node with an equal key or at the null slot of the home bucket.
-/

namespace Carthage

/-- The slot reached in bucket `i` after the nodes `pre`. -/
def Slot.after (i : ℕ) (pre : List ℕ) : Slot :=
  match pre.getLast? with
  | none => .bucket i
  | some a => .next a

@[simp] theorem Slot.after_nil (i : ℕ) : Slot.after i [] = .bucket i := rfl

@[simp] theorem Slot.after_concat (i a : ℕ) (pre : List ℕ) :
    Slot.after i (pre ++ [a]) = .next a := by
  simp [Slot.after]

namespace ChainTable

open LinkField

variable {K P E : Type}

abbrev Path (t : ChainTable K P E) (p : Option ℕ) (as : List ℕ) (q : Option ℕ) : Prop :=
  (ChainNode.link K P).Path t.heap p as q

abbrev Chain (t : ChainTable K P E) (p : Option ℕ) (as : List ℕ) : Prop := t.Path p as none

/-- The key and the payload of an allocated node. -/
def entry (t : ChainTable K P E) (a : ℕ) : Option (K × P) :=
  (t.heap a).map (fun n => (n.key, n.payload))

def entries (t : ChainTable K P E) (as : List ℕ) : List (K × P) := as.filterMap t.entry

/-- The buckets hold the chains `cs`, the pool is the chain `free`, and the nodes
`out` belong to chains that are being taken apart; no node occurs twice. -/
structure Linked (t : ChainTable K P E) (cs : List (List ℕ)) (free out : List ℕ) : Prop where
  length : t.bucket.length = cs.length
  chain : ∀ (i : ℕ) p as, t.bucket[i]? = some p → cs[i]? = some as → t.Chain p as
  pool : t.Chain t.pool free
  nodup : (cs.flatten ++ (free ++ out)).Nodup
  live : ∀ a ∈ out, ∃ n, t.heap a = some n
  bound : ∀ a, t.fresh ≤ a → t.heap a = none

structure Placed (ops : KeyOps K) (t : ChainTable K P E) (cs : List (List ℕ)) : Prop where
  count : ∃ e, 3 ≤ e ∧ t.size = 2 ^ e
  length : cs.length = t.size
  home : ∀ (i : ℕ) as, cs[i]? = some as → ∀ e ∈ t.entries as, ops.hash e.1 &&& (t.size - 1) = i
  distinct : ops.Distinct (t.entries cs.flatten)

variable {ops : TableOps K P E} {t : ChainTable K P E} {cs : List (List ℕ)}
  {free out as pre mid : List ℕ} {i a : ℕ} {p q : Option ℕ} {key : K} {n : ChainNode K P}

theorem entry_eq (h : t.heap a = some n) : t.entry a = some (n.key, n.payload) := by
  simp [entry, h]

theorem entry_eq_some {e : K × P} (h : t.entry a = some e) :
    ∃ n, t.heap a = some n ∧ n.key = e.1 ∧ n.payload = e.2 := by
  obtain ⟨n, hn, rfl⟩ := Option.map_eq_some_iff.mp h
  exact ⟨n, hn, rfl, rfl⟩

@[simp] theorem entries_nil : t.entries [] = [] := rfl

@[simp] theorem entries_append (bs : List ℕ) :
    t.entries (as ++ bs) = t.entries as ++ t.entries bs := List.filterMap_append ..

theorem entries_cons (h : t.heap a = some n) :
    t.entries (a :: as) = (n.key, n.payload) :: t.entries as :=
  List.filterMap_cons_some (entry_eq h)

theorem entries_perm {bs : List ℕ} (h : as.Perm bs) : (t.entries as).Perm (t.entries bs) :=
  h.filterMap _

theorem entries_congr {t' : ChainTable K P E} (h : ∀ a ∈ as, t'.entry a = t.entry a) :
    t'.entries as = t.entries as := List.filterMap_congr h

theorem mem_entries {e : K × P} : e ∈ t.entries as ↔ ∃ a ∈ as, t.entry a = some e :=
  List.mem_filterMap

theorem flatten_mem {as : List ℕ} (h : cs[i]? = some as) (ha : a ∈ as) : a ∈ cs.flatten :=
  List.mem_flatten.mpr ⟨as, List.mem_of_getElem? h, ha⟩

namespace Linked

theorem alive_of_lt (hl : t.Linked cs free out) (h : cs[i]? = some as) :
    ∃ p, t.bucket[i]? = some p ∧ t.Chain p as := by
  have hi : i < t.bucket.length := by
    rw [hl.length]
    exact (List.getElem?_eq_some_iff.mp h).1
  exact ⟨t.bucket[i], List.getElem?_eq_getElem hi, hl.chain i _ as (List.getElem?_eq_getElem hi) h⟩

theorem alive (hl : t.Linked cs free out) (ha : a ∈ cs.flatten) : ∃ n, t.heap a = some n := by
  obtain ⟨as, has, ha⟩ := List.mem_flatten.mp ha
  obtain ⟨i, hi⟩ := List.mem_iff_getElem?.mp has
  obtain ⟨p, -, hp⟩ := hl.alive_of_lt hi
  exact LinkField.Path.alive hp ha

theorem lt_fresh (hl : t.Linked cs free out) (h : t.heap a = some n) : a < t.fresh := by
  by_contra hge
  rw [hl.bound a (by omega)] at h
  cases h

theorem length_le_fresh (hl : t.Linked cs free out) (hp : t.Path p as q) (hnd : as.Nodup) :
    as.length ≤ t.fresh := by
  have hsub : as ⊆ List.range t.fresh := by
    intro a ha
    obtain ⟨n, hn⟩ := LinkField.Path.alive hp ha
    exact List.mem_range.mpr (hl.lt_fresh hn)
  simpa using (hnd.subperm hsub).length_le

theorem nodup_chain (hl : t.Linked cs free out) (h : cs[i]? = some as) : as.Nodup := by
  have hall := (List.nodup_append.mp hl.nodup).1
  exact (List.nodup_flatten.mp hall).1 as (List.mem_of_getElem? h)

theorem nodup_flatten (hl : t.Linked cs free out) : cs.flatten.Nodup :=
  (List.nodup_append.mp hl.nodup).1

theorem notMem_of_ne (hl : t.Linked cs free out) {xs ys : List ℕ} {i j : ℕ}
    (hx : cs[i]? = some xs) (hy : cs[j]? = some ys) (hij : i ≠ j) (ha : a ∈ xs) : a ∉ ys := by
  have hpw := (List.nodup_flatten.mp hl.nodup_flatten).2
  obtain ⟨hi, rfl⟩ := List.getElem?_eq_some_iff.mp hx
  obtain ⟨hj, rfl⟩ := List.getElem?_eq_some_iff.mp hy
  rw [List.pairwise_iff_getElem] at hpw
  intro hb
  rcases Nat.lt_or_gt_of_ne hij with h | h
  · exact hpw i j hi hj h ha hb
  · exact hpw j i hj hi h hb ha

end Linked

theorem load_after (hb : t.bucket[i]? = some p) (hp : t.Path p pre q) :
    t.load (Slot.after i pre) = some q := by
  rcases List.eq_nil_or_concat pre with rfl | ⟨pre, a, rfl⟩
  · obtain rfl : p = q := hp
    exact hb
  · rw [List.concat_eq_append] at hp ⊢
    obtain ⟨-, n, hn, hq⟩ := path_concat.mp hp
    rw [Slot.after_concat, load, hn]
    exact congrArg some hq

theorem walk_eq (pre : List ℕ) (hb : t.bucket[i]? = some p) (hpre : t.Path p pre q)
    {r : Option ℕ} (hmid : t.Path q mid r)
    (hne : ∀ e ∈ t.entries mid, ops.keycmp e.1 key ≠ 0)
    (hstop : r = none ∨ ∃ a n, r = some a ∧ t.heap a = some n ∧ ops.keycmp n.key key = 0)
    {f : ℕ} (hf : mid.length < f) :
    t.walk ops key f (Slot.after i pre) = some (Slot.after i (pre ++ mid)) := by
  induction mid generalizing pre q f with
  | nil =>
      obtain ⟨fuel, rfl⟩ : ∃ m, f = m + 1 := ⟨f - 1, by simp at hf; omega⟩
      obtain rfl : q = r := hmid
      rw [List.append_nil, walk, load_after hb hpre]
      rcases hstop with rfl | ⟨a, n, rfl, hn, hk⟩
      · rfl
      · simp [hn, hk]
  | cons a mid ih =>
      obtain ⟨fuel, rfl⟩ : ∃ m, f = m + 1 := ⟨f - 1, by simp at hf; omega⟩
      obtain ⟨rfl, n, hn, hmid⟩ := hmid
      rw [entries_cons hn] at hne
      have hk : ops.keycmp n.key key ≠ 0 := hne _ List.mem_cons_self
      have hpre' : t.Path p (pre ++ [a]) n.next := path_concat.mpr ⟨hpre, n, hn, rfl⟩
      have hstep := ih _ hpre' hmid (fun e he => hne e (List.mem_cons_of_mem _ he))
        (f := fuel) (by simp at hf; omega)
      rw [Slot.after_concat, List.append_assoc] at hstep
      rw [walk, load_after hb hpre]
      simpa [hn, hk] using hstep

def homeOf (ops : TableOps K P E) (t : ChainTable K P E) (key : K) : ℕ :=
  ops.hash key &&& (t.size - 1)

theorem Placed.exists_home (hp : Placed ops.toKeyOps t cs) (key : K) :
    ∃ as, cs[homeOf ops t key]? = some as := by
  obtain ⟨e, -, he⟩ := hp.count
  have hlt : homeOf ops t key < cs.length := by
    rw [hp.length, homeOf, he]
    exact and_mask_lt _ _
  exact ⟨_, List.getElem?_eq_getElem hlt⟩

theorem nodeLookup_absent (hl : t.Linked cs free out) (hcs : cs[homeOf ops t key]? = some as)
    (hne : ∀ e ∈ t.entries as, ops.keycmp e.1 key ≠ 0) :
    t.nodeLookup ops key = some (Slot.after (homeOf ops t key) as) ∧
      t.load (Slot.after (homeOf ops t key) as) = some none := by
  obtain ⟨p, hb, hch⟩ := hl.alive_of_lt hcs
  refine ⟨?_, load_after hb hch⟩
  have hlen := hl.length_le_fresh hch (hl.nodup_chain hcs)
  exact walk_eq [] hb rfl hch hne (Or.inl rfl) (by omega)

theorem nodeLookup_found {pre post : List ℕ} (hl : t.Linked cs free out)
    (hcs : cs[homeOf ops t key]? = some (pre ++ a :: post))
    (hne : ∀ e ∈ t.entries pre, ops.keycmp e.1 key ≠ 0)
    (ha : t.heap a = some n) (hk : ops.keycmp n.key key = 0) :
    t.nodeLookup ops key = some (Slot.after (homeOf ops t key) pre) ∧
      t.load (Slot.after (homeOf ops t key) pre) = some (some a) := by
  obtain ⟨p, hb, hch⟩ := hl.alive_of_lt hcs
  obtain ⟨r, hpre, hr, -⟩ := path_append.mp hch
  obtain rfl : r = some a := hr
  refine ⟨?_, load_after hb hpre⟩
  have hlen := hl.length_le_fresh hpre
    ((List.nodup_append.mp (hl.nodup_chain hcs)).1)
  exact walk_eq [] hb rfl hpre hne (Or.inr ⟨a, n, rfl, ha, hk⟩) (by omega)

theorem Placed.absent_iff (hp : Placed ops.toKeyOps t cs)
    (hcs : cs[homeOf ops t key]? = some as) :
    (∀ e ∈ t.entries as, ops.keycmp e.1 key ≠ 0) ↔
      ops.find (t.entries cs.flatten) key = none := by
  rw [KeyOps.find_eq_none]
  constructor
  · intro h e he hk
    obtain ⟨a, ha, hea⟩ := mem_entries.mp he
    obtain ⟨bs, hbs, hab⟩ := List.mem_flatten.mp ha
    obtain ⟨j, hj⟩ := List.mem_iff_getElem?.mp hbs
    have heb : e ∈ t.entries bs := mem_entries.mpr ⟨a, hab, hea⟩
    have hjh : j = homeOf ops t key := by
      rw [← hp.home j bs hj e heb, homeOf, ops.hash_eq _ _ hk]
    rw [hjh, hcs] at hj
    obtain rfl := Option.some.inj hj
    exact h e heb hk
  · intro h e he
    obtain ⟨a, ha, hea⟩ := mem_entries.mp he
    exact h e (mem_entries.mpr ⟨a, flatten_mem hcs ha, hea⟩)

theorem Placed.exists_split (hp : Placed ops.toKeyOps t cs)
    {e : K × P} (h : ops.find (t.entries cs.flatten) key = some e) :
    ∃ pre a post n, cs[homeOf ops t key]? = some (pre ++ a :: post) ∧
      (∀ x ∈ t.entries pre, ops.keycmp x.1 key ≠ 0) ∧
      t.heap a = some n ∧ (n.key, n.payload) = e := by
  obtain ⟨he, hk⟩ := KeyOps.mem_of_find h
  obtain ⟨a, ha, hea⟩ := mem_entries.mp he
  obtain ⟨as, has, haas⟩ := List.mem_flatten.mp ha
  obtain ⟨j, hj⟩ := List.mem_iff_getElem?.mp has
  have hjh : j = homeOf ops t key := by
    rw [← hp.home j as hj e (mem_entries.mpr ⟨a, haas, hea⟩), homeOf, ops.hash_eq _ _ hk]
  obtain ⟨pre, post, rfl⟩ := List.append_of_mem haas
  obtain ⟨n, hn, h1, h2⟩ := entry_eq_some hea
  refine ⟨pre, a, post, n, hjh ▸ hj, ?_, hn, Prod.ext h1 h2⟩
  intro x hx hxk
  have hdist := hp.distinct
  obtain ⟨l₁, l₂, hcs⟩ := List.append_of_mem has
  rw [hcs] at hdist
  simp only [List.flatten_append, List.flatten_cons, entries_append, entries_cons hn,
    List.append_assoc, List.cons_append] at hdist
  have hpw := ((List.pairwise_append.mp hdist).2.1)
  have hxe : ops.keycmp x.1 n.key ≠ 0 :=
    (List.pairwise_append.mp hpw).2.2 x hx (n.key, n.payload) List.mem_cons_self
  exact hxe (ops.keycmp_trans _ _ _ hxk (ops.keycmp_symm _ _ (by rwa [h1])))

end ChainTable

end Carthage
