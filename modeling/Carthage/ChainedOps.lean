import Carthage.ChainedResize

/-!
# The operations of a chained table on its content

`Holds ops t L` is the invariant of the tables: `t` is a linked and placed table with
exact counters whose pairs are `L` in some order. Each operation is described by what
it does to `L` and to the calls of the free functions.
-/

namespace Carthage

namespace ChainTable

open LinkField

variable {K P E : Type} {ops : TableOps K P E} {t : ChainTable K P E} {cs : List (List ℕ)}
  {free as : List ℕ} {i a : ℕ} {n : ChainNode K P} {L : List (K × P)} {e : K × P} {key : K}

/-- The invariant with its chains and its pool made explicit. -/
structure HoldsAt (ops : TableOps K P E) (t : ChainTable K P E) (cs : List (List ℕ))
    (free : List ℕ) : Prop where
  linked : t.Linked cs free []
  placed : Placed ops.toKeyOps t cs
  used : t.used = cs.flatten.length
  poolSize : t.poolSize = free.length
  small : 8 * t.size < 2 ^ 32

def Holds (ops : TableOps K P E) (t : ChainTable K P E) (L : List (K × P)) : Prop :=
  ∃ cs free, HoldsAt ops t cs free ∧ (t.entries cs.flatten).Perm L

theorem Holds.distinct (h : Holds ops t L) : ops.Distinct L := by
  obtain ⟨cs, free, hat, hperm⟩ := h
  exact (KeyOps.distinct_perm hperm).mp hat.placed.distinct

theorem Holds.find_eq (hat : HoldsAt ops t cs free) (hperm : (t.entries cs.flatten).Perm L) :
    ops.find (t.entries cs.flatten) key = ops.find L key :=
  KeyOps.find_perm hat.placed.distinct hperm

theorem length_entries (hl : t.Linked cs free []) :
    (t.entries cs.flatten).length = cs.flatten.length := by
  have hall : ∀ xs : List ℕ, (∀ a ∈ xs, ∃ n, t.heap a = some n) →
      (t.entries xs).length = xs.length := by
    intro xs hxs
    induction xs with
    | nil => rfl
    | cons a xs ih =>
        obtain ⟨n, hn⟩ := hxs a List.mem_cons_self
        rw [entries_cons hn, List.length_cons, List.length_cons,
          ih (fun b hb => hxs b (List.mem_cons_of_mem a hb))]
  exact hall _ (fun a ha => hl.alive ha)

theorem Holds.used_eq (h : Holds ops t L) : t.used = L.length := by
  obtain ⟨cs, free, hat, hperm⟩ := h
  rw [hat.used, ← length_entries hat.linked, hperm.length_eq]

theorem Holds.nodeLookup_absent (h : Holds ops t L) (hk : ops.find L key = none) :
    ∃ s, t.nodeLookup ops key = some s ∧ t.load s = some none := by
  obtain ⟨cs, free, hat, hperm⟩ := h
  obtain ⟨as, has⟩ := hat.placed.exists_home key
  rw [← Holds.find_eq hat hperm, ← hat.placed.absent_iff has] at hk
  exact ⟨_, ChainTable.nodeLookup_absent hat.linked has hk⟩

theorem Holds.nodeLookup_found (h : Holds ops t L) (hk : ops.find L key = some e) :
    ∃ s a n, t.nodeLookup ops key = some s ∧ t.load s = some (some a) ∧ t.heap a = some n ∧
      (n.key, n.payload) = e := by
  obtain ⟨cs, free, hat, hperm⟩ := h
  rw [← Holds.find_eq hat hperm] at hk
  obtain ⟨pre, a, post, n, hcs, hne, hn, he⟩ := hat.placed.exists_split hk
  have hkey : ops.keycmp n.key key = 0 := by
    have := (KeyOps.mem_of_find hk).2
    rwa [← he] at this
  obtain ⟨hlook, hload⟩ := ChainTable.nodeLookup_found hat.linked hcs hne hn hkey
  exact ⟨_, a, n, hlook, hload, hn, he⟩

theorem HoldsAt.requests (hat : HoldsAt ops t cs free) (r : ℕ) :
    HoldsAt ops { t with requests := r } cs free :=
  ⟨⟨hat.linked.length, hat.linked.chain, hat.linked.pool, hat.linked.nodup, hat.linked.live,
    hat.linked.bound⟩, ⟨hat.placed.count, hat.placed.length, hat.placed.home, hat.placed.distinct⟩,
    hat.used, hat.poolSize, hat.small⟩

theorem Holds.calls (h : Holds ops t L) (c : List E) : Holds ops { t with calls := c } L := by
  obtain ⟨cs, free, hat, hperm⟩ := h
  exact ⟨cs, free, ⟨⟨hat.linked.length, hat.linked.chain, hat.linked.pool, hat.linked.nodup,
    hat.linked.live, hat.linked.bound⟩, ⟨hat.placed.count, hat.placed.length, hat.placed.home,
    hat.placed.distinct⟩, hat.used, hat.poolSize, hat.small⟩, hperm⟩

theorem Holds.resize {s : ℕ} (h : Holds ops t L) (hs : 8 * nbucketRoundup s < 2 ^ 32)
    (hs63 : s ≤ 2 ^ 63) :
    ∃ rc t', t.resize ops s = some (rc, t') ∧ Holds ops t' L ∧ t'.calls = t.calls ∧
      (rc ≠ 0 → t'.size = t.size) := by
  obtain ⟨cs, free, hat, hperm⟩ := h
  obtain ⟨rc, t', hr, ⟨rfl, rfl⟩ | ⟨rfl, hsize, ⟨b, h, ht'⟩, hentry, cs', hl', hp', hcs'⟩⟩ :=
    resize_spec hat.linked hat.placed hs hs63
  · exact ⟨-1, _, hr, ⟨cs, free, hat.requests _, hperm⟩, rfl, fun _ => rfl⟩
  · refine ⟨0, t', hr, ⟨cs', free, ⟨hl', hp', ?_, ?_, ?_⟩, ?_⟩, ?_, fun h0 => absurd rfl h0⟩
    · rw [ht', hcs'.length_eq]
      exact hat.used
    · rw [ht']
      exact hat.poolSize
    · rw [hsize]
      exact hs
    · refine (entries_perm hcs').trans ?_
      rw [entries_congr (fun c _ => hentry c)]
      exact hperm
    · rw [ht']

/-- The bucket count that an insertion may have to allocate stays below `2 ^ 29`. -/
def GrowsBelow (t : ChainTable K P E) : Prop :=
  t.used > t.size + t.size >>> 3 → nbucketRoundup t.growTarget < 2 ^ 29

theorem Holds.growTarget_small (h : Holds ops t L) (hg : t.GrowsBelow)
    (hcrowd : t.used > t.size + t.size >>> 3) :
    8 * nbucketRoundup t.growTarget < 2 ^ 32 ∧ t.growTarget ≤ 2 ^ 63 := by
  obtain ⟨cs, free, hat, -⟩ := h
  have hsmall := hat.small
  have hround := hg hcrowd
  have hhalf : t.size >>> 1 ≤ t.size := Nat.shiftRight_le t.size 1
  have htarget : t.growTarget ≤ t.size + t.size := by
    rw [growTarget]
    split_ifs <;> omega
  exact ⟨by omega, by omega⟩

theorem Holds.shrink_small {s : ℕ} (h : Holds ops t L) (hs : s ≤ t.size) :
    8 * nbucketRoundup s < 2 ^ 32 ∧ s ≤ 2 ^ 63 := by
  obtain ⟨cs, free, hat, -⟩ := h
  obtain ⟨e, h3, he⟩ := hat.placed.count
  have hsmall := hat.small
  have hs63 : s ≤ 2 ^ 63 := by omega
  obtain ⟨e', he', -, -, hmin⟩ := nbucketRoundup_spec hs63
  have hle : e' ≤ e := hmin e h3 (by omega)
  have hpow : 2 ^ e' ≤ 2 ^ e := Nat.pow_le_pow_right Nat.two_pos hle
  exact ⟨by omega, hs63⟩

variable (ops) in
theorem nodeAlloc_spec (hl : t.Linked cs free []) (hps : t.poolSize = free.length) (key : K)
    (payload : P) :
    ∃ node t', t.nodeAlloc ops key payload = some (node, t') ∧ t'.bucket = t.bucket ∧
      t'.size = t.size ∧ t'.used = t.used ∧ t'.calls = t.calls ∧
      (∀ c ∈ cs.flatten, t'.heap c = t.heap c) ∧
      ((node = none ∧ t' = { t with requests := t.requests + 1 }) ∨
        ∃ a free', node = some a ∧ t'.heap a = some ⟨none, key, payload⟩ ∧
          t'.poolSize = free'.length ∧ t'.Linked cs free' [a]) := by
  cases hpool : t.pool with
  | some a =>
      obtain ⟨free', rfl⟩ : ∃ f, free = a :: f := by
        have hhead := LinkField.Path.start_eq_head hl.pool
        rw [hpool] at hhead
        exact ⟨free.tail, (List.cons_head?_tail hhead.symm).symm⟩
      obtain ⟨-, n, hn, hrest⟩ := hl.pool
      have hnd := List.nodup_append.mp hl.nodup
      have hafree : a ∉ free' := (List.nodup_cons.mp (by simpa using hnd.2.1)).1
      have hacs : a ∉ cs.flatten := fun hm => hnd.2.2 a hm a (by simp) rfl
      have hkeep : ∀ c, c ≠ a →
          Function.update t.heap a (some ⟨none, key, payload⟩) c = t.heap c := fun c hc =>
        Function.update_of_ne hc _ _
      let t' : ChainTable K P E := { t with
        pool := n.next, poolSize := t.poolSize - 1,
        heap := Function.update t.heap a (some ⟨none, key, payload⟩) }
      have halloc : t.nodeAlloc ops key payload = some (some a, t') := by
        simp [nodeAlloc, hpool, hn, t']
      refine ⟨some a, t', halloc, rfl, rfl, rfl, rfl, ?_,
        Or.inr ⟨a, free', rfl, Function.update_self _ _ _, ?_, ?_⟩⟩
      · exact fun c hc => hkeep c (fun he => hacs (he ▸ hc))
      · simp [hps, t']
      · refine ⟨hl.length, ?_, ?_, ?_, ?_, ?_⟩
        · intro j p xs hp hxs
          exact (hl.chain j p xs hp hxs).congr_eq
            (fun c hc => hkeep c (fun he => hacs (he ▸ flatten_mem hxs hc)))
        · exact hrest.congr_eq (fun c hc => hkeep c (fun he => hafree (he ▸ hc)))
        · have hperm : (cs.flatten ++ (free' ++ [a])).Perm (cs.flatten ++ (a :: free' ++ [])) := by
            rw [List.append_nil]
            exact List.perm_append_comm.append_left _
          exact hperm.nodup_iff.mpr hl.nodup
        · intro c hc
          obtain rfl := List.mem_singleton.mp hc
          exact ⟨_, Function.update_self _ _ _⟩
        · intro c hc
          have hca : c ≠ a := fun he => absurd (hl.lt_fresh hn) (Nat.not_lt.mpr (he ▸ hc))
          exact (hkeep c hca).trans (hl.bound c hc)
  | none =>
      obtain rfl : free = [] := by
        have hhead := LinkField.Path.start_eq_head hl.pool
        rw [hpool] at hhead
        exact List.head?_eq_none_iff.mp hhead.symm
      by_cases hg : ops.granted t.requests
      · have hkeep : ∀ c, c ≠ t.fresh →
            Function.update t.heap t.fresh (some ⟨none, key, payload⟩) c = t.heap c := fun c hc =>
          Function.update_of_ne hc _ _
        have hne : ∀ c ∈ cs.flatten, c ≠ t.fresh := by
          rintro c hc rfl
          obtain ⟨n, hn⟩ := hl.alive hc
          have := hl.lt_fresh hn
          omega
        let t' : ChainTable K P E := { t with
          fresh := t.fresh + 1, requests := t.requests + 1,
          heap := Function.update t.heap t.fresh (some ⟨none, key, payload⟩) }
        have halloc : t.nodeAlloc ops key payload = some (some t.fresh, t') := by
          simp [nodeAlloc, hpool, request, hg, t']
        refine ⟨some t.fresh, t', halloc, rfl, rfl, rfl, rfl, fun c hc => hkeep c (hne c hc),
          Or.inr ⟨t.fresh, [], rfl, Function.update_self _ _ _, hps, ?_⟩⟩
        refine ⟨hl.length, ?_, hpool, ?_, ?_, ?_⟩
        · intro j p xs hp hxs
          exact (hl.chain j p xs hp hxs).congr_eq
            (fun c hc => hkeep c (hne c (flatten_mem hxs hc)))
        · refine List.nodup_append.mpr ⟨hl.nodup_flatten, by simp, ?_⟩
          intro c hc d hd
          obtain rfl : d = t.fresh := by simpa using hd
          exact hne c hc
        · intro c hc
          obtain rfl := List.mem_singleton.mp hc
          exact ⟨_, Function.update_self _ _ _⟩
        · intro c hc
          have hc' : t.fresh + 1 ≤ c := hc
          exact (hkeep c (by omega)).trans (hl.bound c (by omega))
      · have halloc : t.nodeAlloc ops key payload =
            some (none, { t with requests := t.requests + 1 }) := by
          rw [nodeAlloc, hpool]
          simp [request, hg, hpool]
        exact ⟨none, _, halloc, rfl, rfl, rfl, rfl, fun _ _ => rfl, Or.inl ⟨rfl, by rw [← hpool]⟩⟩

variable (ops) in
theorem nodeFree_spec {out : List ℕ} (hl : t.Linked cs free (a :: out))
    (hps : t.poolSize = free.length) (hn : t.heap a = some n) :
    ∃ t' free', t.nodeFree ops a = some t' ∧ t'.Linked cs free' out ∧
      t'.poolSize = free'.length ∧ t'.calls = t.calls ++ ops.released n.key n.payload ∧
      (∃ h p m, t' = { t with
        heap := h, pool := p, poolSize := m, calls := t.calls ++ ops.released n.key n.payload }) ∧
      ∀ c, c ≠ a → t'.heap c = t.heap c := by
  have hnd := List.nodup_append.mp hl.nodup
  have hnd₂ := List.nodup_append.mp hnd.2.1
  have hout : a ∉ out := (List.nodup_cons.mp hnd₂.2.1).1
  have hfree : a ∉ free := fun hm => hnd₂.2.2 a hm a (by simp) rfl
  have hcs : a ∉ cs.flatten := fun hm => hnd.2.2 a hm a (by simp) rfl
  by_cases hsmall : t.poolSize < ops.poolMax
  · have hkeep : ∀ c, c ≠ a → (ChainNode.link K P).relink t.heap a t.pool c = t.heap c :=
      fun c hc => relink_of_ne hc
    let t' : ChainTable K P E := { t with
      heap := (ChainNode.link K P).relink t.heap a t.pool, pool := some a,
      poolSize := t.poolSize + 1, calls := t.calls ++ ops.released n.key n.payload }
    have hfreed : t.nodeFree ops a = some t' := by
      simp [nodeFree, hn, hsmall, t']
    refine ⟨t', a :: free, hfreed, ?_, by simp [hps, t'], rfl, ⟨_, _, _, rfl⟩, hkeep⟩
    refine ⟨hl.length, ?_, ?_, ?_, ?_, ?_⟩
    · intro j p xs hp hxs
      exact (hl.chain j p xs hp hxs).congr_eq
        (fun c hc => hkeep c (fun he => hcs (he ▸ flatten_mem hxs hc)))
    · refine ⟨rfl, { n with next := t.pool }, ?_, ?_⟩
      · change (ChainNode.link K P).relink t.heap a t.pool a = _
        rw [relink_self, hn]
        rfl
      · exact hl.pool.congr_eq (fun c hc => hkeep c (fun he => hfree (he ▸ hc)))
    · have hperm : (cs.flatten ++ (a :: free ++ out)).Perm (cs.flatten ++ (free ++ a :: out)) :=
        List.perm_middle.symm.append_left _
      exact hperm.nodup_iff.mpr hl.nodup
    · intro c hc
      obtain ⟨m, hm⟩ := hl.live c (List.mem_cons_of_mem a hc)
      exact ⟨m, (hkeep c (fun he => hout (he ▸ hc))).trans hm⟩
    · intro c hc
      have hca : c ≠ a := fun he => absurd (hl.lt_fresh hn) (Nat.not_lt.mpr (he ▸ hc))
      exact (hkeep c hca).trans (hl.bound c hc)
  · have hkeep : ∀ c, c ≠ a → Function.update t.heap a none c = t.heap c :=
      fun c hc => Function.update_of_ne hc _ _
    let t' : ChainTable K P E := { t with
      heap := Function.update t.heap a none,
      calls := t.calls ++ ops.released n.key n.payload }
    have hfreed : t.nodeFree ops a = some t' := by
      simp [nodeFree, hn, hsmall, t']
    refine ⟨t', free, hfreed, ?_, hps, rfl, ⟨_, _, _, rfl⟩, hkeep⟩
    refine ⟨hl.length, ?_, ?_, ?_, ?_, ?_⟩
    · intro j p xs hp hxs
      exact (hl.chain j p xs hp hxs).congr_eq
        (fun c hc => hkeep c (fun he => hcs (he ▸ flatten_mem hxs hc)))
    · exact hl.pool.congr_eq (fun c hc => hkeep c (fun he => hfree (he ▸ hc)))
    · have hsub : (cs.flatten ++ (free ++ out)).Sublist (cs.flatten ++ (free ++ a :: out)) :=
        (List.Sublist.refl _).append ((List.Sublist.refl _).append (List.sublist_cons_self a out))
      exact hl.nodup.sublist hsub
    · intro c hc
      obtain ⟨m, hm⟩ := hl.live c (List.mem_cons_of_mem a hc)
      exact ⟨m, (hkeep c (fun he => hout (he ▸ hc))).trans hm⟩
    · intro c hc
      by_cases he : c = a
      · rw [he]
        exact Function.update_self _ _ _
      · exact (hkeep c he).trans (hl.bound c hc)

theorem HoldsAt.link_new {key : K} {payload : P} (hl : t.Linked cs free [a])
    (hp : Placed ops.toKeyOps t cs) (ha : t.heap a = some ⟨none, key, payload⟩)
    (hused : t.used = cs.flatten.length) (hps : t.poolSize = free.length)
    (hsmall : 8 * t.size < 2 ^ 32) (has : cs[homeOf ops t key]? = some as)
    (habs : ops.find (t.entries cs.flatten) key = none) :
    ∃ t', t.store (some a) (Slot.after (homeOf ops t key) as) = some t' ∧ t'.calls = t.calls ∧
      t'.used = t.used ∧
      Holds ops { t' with used := t'.used + 1 } ((key, payload) :: t.entries cs.flatten) := by
  obtain ⟨p, hb, hch⟩ := hl.alive_of_lt has
  obtain ⟨b, h, hstore, hs⟩ := store_after hb hch (hl.nodup_chain has) (some a)
  have hacs : a ∉ cs.flatten := fun hm =>
    (List.nodup_append.mp hl.nodup).2.2 a hm a (by simp) rfl
  have hha : h a = some ⟨none, key, payload⟩ := by
    rw [hs.heap a (fun hm => hacs (flatten_mem has hm)), ha]
  let t' : ChainTable K P E := { t with bucket := b, heap := h, used := t.used + 1 }
  have hperm := perm_append_chain (a := a) has
  have hentries : ∀ xs, t'.entries xs = t.entries xs := fun xs =>
    entries_congr (fun c _ => hs.entry c)
  have hl' := hl.append has hs hha rfl (fun _ _ => rfl)
  have hat : HoldsAt ops t' (cs.set (homeOf ops t key) (as ++ [a])) free := by
    refine ⟨⟨hl'.length, hl'.chain, hl'.pool, hl'.nodup, hl'.live, hl'.bound⟩, ?_, ?_, hps, hsmall⟩
    · exact hp.append rfl (fun c _ => hs.entry c) has hha rfl habs
    · rw [hperm.length_eq, List.length_append, ← hused]
      rfl
  refine ⟨_, hstore, rfl, rfl, _, free, hat, ?_⟩
  refine (entries_perm (hperm.trans List.perm_append_comm)).trans ?_
  have ha' : t'.heap a = some ⟨none, key, payload⟩ := hha
  change (t'.entries (a :: cs.flatten)).Perm _
  rw [entries_cons ha', hentries]

theorem Holds.placeNode (h : Holds ops t L) (hk : ops.find L key = none) (payload : P) :
    ∃ s rc t', t.nodeLookup ops key = some s ∧ t.placeNode ops s key payload = some (rc, t') ∧
      t'.calls = t.calls ∧
      ((rc = 0 ∧ Holds ops t' ((key, payload) :: L)) ∨ (rc ≠ 0 ∧ Holds ops t' L)) := by
  obtain ⟨cs, free, hat, hperm⟩ := h
  obtain ⟨as, has⟩ := hat.placed.exists_home key
  have habs : ops.find (t.entries cs.flatten) key = none := by
    rw [Holds.find_eq hat hperm, hk]
  obtain ⟨hlook, hload⟩ := ChainTable.nodeLookup_absent hat.linked has
    ((hat.placed.absent_iff has).mpr habs)
  obtain ⟨node, t₂, halloc, hbucket, hsize, hused, hcalls, hheap, hnode⟩ :=
    nodeAlloc_spec ops hat.linked hat.poolSize key payload
  have hhome : homeOf ops t₂ key = homeOf ops t key := by simp only [homeOf, hsize]
  rcases hnode with ⟨rfl, rfl⟩ | ⟨a, free', rfl, ha, hps, hl⟩
  · have hstore : ({ t with requests := t.requests + 1 } : ChainTable K P E).store none
        (Slot.after (homeOf ops t key) as) = some { t with requests := t.requests + 1 } := by
      apply store_load
      rw [← hload]
      cases Slot.after (homeOf ops t key) as <;> rfl
    refine ⟨_, -2, { t with requests := t.requests + 1 }, hlook, ?_, rfl,
      Or.inr ⟨by decide, cs, free, hat.requests _, hperm⟩⟩
    simp [ChainTable.placeNode, halloc, hstore]
  · have hentry : ∀ c ∈ cs.flatten, t₂.entry c = t.entry c := fun c hc => by
      simp only [entry, hheap c hc]
    have hp : Placed ops.toKeyOps t₂ cs := by
      refine ⟨by rw [hsize]; exact hat.placed.count, by rw [hsize]; exact hat.placed.length, ?_, ?_⟩
      · intro j xs hxs e he
        rw [entries_congr (fun c hc => hentry c (flatten_mem hxs hc))] at he
        rw [hsize]
        exact hat.placed.home j xs hxs e he
      · rw [entries_congr hentry]
        exact hat.placed.distinct
    rw [← entries_congr hentry] at habs hperm
    rw [← hhome] at has hlook
    obtain ⟨t₃, hstore, hc₃, hu₃, cs', f', hat', hperm'⟩ := HoldsAt.link_new hl hp ha
      (by rw [hused, hat.used]) hps (by rw [hsize]; exact hat.small) has habs
    refine ⟨_, 0, { t₃ with used := t₃.used + 1 }, hlook, ?_, hc₃.trans hcalls,
      Or.inl ⟨rfl, cs', f', hat', ?_⟩⟩
    · simp [ChainTable.placeNode, halloc, hstore]
    · exact hperm'.trans (hperm.cons _)

theorem Holds.addNode (h : Holds ops t L) (hk : ops.find L key = none) (payload : P)
    (hgrow : t.used > t.size + t.size >>> 3 →
      8 * nbucketRoundup t.growTarget < 2 ^ 32 ∧ t.growTarget ≤ 2 ^ 63) {s : Slot}
    (hs : t.nodeLookup ops key = some s) :
    ∃ rc t', t.addNode ops s key payload = some (rc, t') ∧ t'.calls = t.calls ∧
      ((rc = 0 ∧ Holds ops t' ((key, payload) :: L)) ∨ (rc ≠ 0 ∧ Holds ops t' L)) := by
  by_cases hcrowd : t.used > t.size + t.size >>> 3
  · obtain ⟨hg, hg63⟩ := hgrow hcrowd
    obtain ⟨rc, t₁, hresize, h₁, hc₁, -⟩ := h.resize hg hg63
    by_cases hrc : rc = 0
    · obtain ⟨s₁, rc', t', hlook, hplace, hcalls, hres⟩ := h₁.placeNode hk payload
      refine ⟨rc', t', ?_, hcalls.trans hc₁, hres⟩
      simp [ChainTable.addNode, hcrowd, hresize, hrc, hlook, hplace]
    · refine ⟨-1, t₁, ?_, hc₁, Or.inr ⟨by decide, h₁⟩⟩
      simp [ChainTable.addNode, hcrowd, hresize, hrc]
  · obtain ⟨s₁, rc, t', hlook, hplace, hres⟩ := h.placeNode hk payload
    obtain rfl : s = s₁ := by
      rw [hs] at hlook
      exact Option.some.inj hlook
    refine ⟨rc, t', ?_, hres⟩
    simp only [ChainTable.addNode, if_neg hcrowd, hplace]

/-! ## When memory is granted -/

variable {t' : ChainTable K P E} {rc : ℤ} {key : K}

theorem resize_granted (hg : ∀ n, ops.granted n = true) {n : ℕ}
    (h : t.resize ops n = some (rc, t')) : rc = 0 := by
  simp only [ChainTable.resize, ChainTable.bucketAlloc, ChainTable.request, hg, if_true,
    Option.bind_eq_bind, Option.bind_eq_some_iff] at h
  obtain ⟨⟨bucket, t₁⟩, halloc, h⟩ := h
  split_ifs at halloc
  obtain ⟨rfl, rfl⟩ := Prod.mk.inj (Option.some.inj halloc)
  obtain ⟨t₂, -, h⟩ := Option.bind_eq_some_iff.mp h
  exact (Prod.mk.inj (Option.some.inj h)).1.symm

theorem nodeAlloc_granted (hg : ∀ n, ops.granted n = true) {node : Option ℕ} {payload : P}
    (h : t.nodeAlloc ops key payload = some (node, t')) : ∃ a, node = some a := by
  unfold ChainTable.nodeAlloc at h
  cases hpool : t.pool with
  | some a =>
      rw [hpool] at h
      obtain ⟨n, -, h⟩ := Option.bind_eq_some_iff.mp h
      exact ⟨a, (Prod.mk.inj (Option.some.inj h)).1.symm⟩
  | none =>
      simp only [hpool, ChainTable.request, hg, if_true] at h
      exact ⟨t.fresh, (Prod.mk.inj (Option.some.inj h)).1.symm⟩

theorem placeNode_granted (hg : ∀ n, ops.granted n = true) {s : Slot} {payload : P}
    (h : t.placeNode ops s key payload = some (rc, t')) : rc = 0 := by
  obtain ⟨⟨node, t₁⟩, halloc, h⟩ := Option.bind_eq_some_iff.mp h
  obtain ⟨a, rfl⟩ := nodeAlloc_granted hg halloc
  obtain ⟨t₂, -, h⟩ := Option.bind_eq_some_iff.mp h
  exact (Prod.mk.inj (Option.some.inj h)).1.symm

/-- An insertion fails for want of memory only. -/
theorem addNode_granted (hg : ∀ n, ops.granted n = true) {s : Slot} {payload : P}
    (h : t.addNode ops s key payload = some (rc, t')) : rc = 0 := by
  unfold ChainTable.addNode at h
  split_ifs at h with hcrowd
  · obtain ⟨⟨rc₁, t₁⟩, hresize, h⟩ := Option.bind_eq_some_iff.mp h
    obtain rfl := resize_granted hg hresize
    obtain ⟨s₁, -, h⟩ := Option.bind_eq_some_iff.mp h
    exact placeNode_granted hg h
  · exact placeNode_granted hg h

end ChainTable

end Carthage
