import Carthage.ChainedLookup

/-!
# Relinking nodes and resizing a chained table

A store through the slot at the end of a chain prefix redirects that chain and
nothing else. Resizing appends the nodes of the old chains one by one to the chains
of the new array; the table under construction stays linked and placed at every
step, and every node keeps its key and payload.
-/

namespace Carthage

namespace ChainTable

open LinkField

variable {K P E : Type} {ops : TableOps K P E} {t : ChainTable K P E} {cs : List (List ℕ)}
  {free out as pre rest : List ℕ} {i a : ℕ} {p q r : Option ℕ} {n : ChainNode K P}

theorem entry_relink (t : ChainTable K P E) (a b : ℕ) (q : Option ℕ) :
    ({ t with heap := (ChainNode.link K P).relink t.heap a q } : ChainTable K P E).entry b =
      t.entry b := by
  by_cases h : b = a
  · subst h
    simp only [entry, relink_self, Option.map_map]
    rfl
  · simp only [entry, relink_of_ne h]

/-- The effect of a store at the slot after `pre` in bucket `i`. -/
structure Stored (t : ChainTable K P E) (i : ℕ) (pre : List ℕ) (q : Option ℕ)
    (b : List (Option ℕ)) (h : ℕ → Option (ChainNode K P)) : Prop where
  length : b.length = t.bucket.length
  other : ∀ j, j ≠ i → b[j]? = t.bucket[j]?
  path : ∃ p, b[i]? = some p ∧ (ChainNode.link K P).Path h p pre q
  heap : ∀ a, a ∉ pre → h a = t.heap a
  entry : ∀ a, (h a).map (fun n => (n.key, n.payload)) = t.entry a

theorem store_after (hb : t.bucket[i]? = some p) (hp : t.Path p pre r) (hnd : pre.Nodup)
    (q : Option ℕ) :
    ∃ b h, t.store q (Slot.after i pre) = some { t with bucket := b, heap := h } ∧
      Stored t i pre q b h := by
  obtain ⟨hi, -⟩ := List.getElem?_eq_some_iff.mp hb
  rcases List.eq_nil_or_concat pre with rfl | ⟨pre, a, rfl⟩
  · refine ⟨t.bucket.set i q, t.heap, by simp [store, hi], ?_⟩
    exact {
      length := List.length_set
      other := fun j hj => List.getElem?_set_ne (Ne.symm hj)
      path := ⟨q, List.getElem?_set_self hi, rfl⟩
      heap := fun _ _ => rfl
      entry := fun _ => rfl }
  · rw [List.concat_eq_append] at hp hnd ⊢
    obtain ⟨n, hn⟩ := LinkField.Path.alive hp (List.mem_append_right _ (List.mem_singleton_self a))
    have ha : a ∉ pre := fun hm =>
      (List.nodup_append.mp hnd).2.2 a hm a (List.mem_singleton_self a) rfl
    refine ⟨t.bucket, (ChainNode.link K P).relink t.heap a q, by simp [store, hn], ?_⟩
    exact {
      length := rfl
      other := fun _ _ => rfl
      path := ⟨p, hb, LinkField.Path.relink_last hp ha⟩
      heap := fun b hb => relink_of_ne (fun he => hb (by simp [he]))
      entry := fun b => entry_relink t a b q }

theorem store_load {s : Slot} (h : t.load s = some q) : t.store q s = some t := by
  cases s with
  | bucket i =>
      obtain ⟨hi, hq⟩ := List.getElem?_eq_some_iff.mp h
      rw [store, if_pos hi, ← hq, List.set_getElem_self]
  | next a =>
      obtain ⟨n, hn, hq⟩ := Option.map_eq_some_iff.mp h
      have hsame : (ChainNode.link K P).relink t.heap a q = t.heap := by
        funext c
        by_cases hc : c = a
        · subst hc
          rw [relink_self, hn, ← hq]
          rfl
        · exact relink_of_ne hc
      rw [store, if_pos (by simp [hn]), hsame]

/-- Redirecting one chain of a linked table: the nodes of the new chain come from the
old one and from `out`, and the heap outside them is unchanged. -/
theorem Linked.redirect {cs' : List (List ℕ)} {out' bs : List ℕ} {t' : ChainTable K P E}
    (hl : t.Linked cs free out) (hcs : cs[i]? = some as) (hcs' : cs' = cs.set i bs)
    (hlen : t'.bucket.length = t.bucket.length)
    (hother : ∀ j, j ≠ i → t'.bucket[j]? = t.bucket[j]?)
    (hpath : ∃ p, t'.bucket[i]? = some p ∧ t'.Chain p bs)
    (hheap : ∀ a, a ∉ as → a ∉ bs → t'.heap a = t.heap a)
    (hpool : t'.pool = t.pool) (hfresh : t'.fresh = t.fresh)
    (hperm : (bs ++ out').Perm (as ++ out)) (hlive : ∀ a ∈ out', ∃ n, t'.heap a = some n) :
    t'.Linked cs' free out' := by
  subst hcs'
  have hi : i < cs.length := (List.getElem?_eq_some_iff.mp hcs).1
  have hset := perm_flatten_set hcs bs
  have hall : ((cs.set i bs).flatten ++ (free ++ out')).Perm (cs.flatten ++ (free ++ out)) := by
    rw [List.perm_iff_count] at hset hperm ⊢
    intro x
    have h1 := hset x
    have h2 := hperm x
    simp only [List.count_append] at h1 h2 ⊢
    omega
  have hbs : ∀ a ∈ bs, a ∈ as ∨ a ∈ out := fun a ha =>
    List.mem_append.mp (hperm.mem_iff.mp (List.mem_append_left _ ha))
  have hdisj := List.nodup_append.mp hl.nodup
  -- the nodes of the pool and of the other chains are neither in the old nor in the new chain
  have hkeep : ∀ a, a ∉ as → a ∉ out → t'.heap a = t.heap a := fun a h1 h2 =>
    hheap a h1 (fun hb => (hbs a hb).elim h1 h2)
  refine ⟨by rw [hlen, hl.length, List.length_set], ?_, ?_, hall.nodup_iff.mpr hl.nodup, hlive, ?_⟩
  · intro j p xs hp hxs
    by_cases hj : j = i
    · subst hj
      obtain ⟨p', hp', hchain⟩ := hpath
      rw [hp'] at hp
      rw [List.getElem?_set_self hi] at hxs
      obtain rfl := Option.some.inj hp
      obtain rfl := Option.some.inj hxs
      exact hchain
    · rw [hother j hj] at hp
      rw [List.getElem?_set_ne (Ne.symm hj)] at hxs
      refine (hl.chain j p xs hp hxs).congr_eq (fun a ha => hkeep a ?_ ?_)
      · exact hl.notMem_of_ne hxs hcs hj ha
      · exact fun ho => hdisj.2.2 a (flatten_mem hxs ha) a (List.mem_append_right _ ho) rfl
  · rw [Chain, Path, hpool]
    refine hl.pool.congr_eq (fun a ha => hkeep a ?_ ?_)
    · exact fun ho => hdisj.2.2 a (flatten_mem hcs ho) a (List.mem_append_left _ ha) rfl
    · exact fun ho => (List.nodup_append.mp hdisj.2.1).2.2 a ha a ho rfl
  · intro a ha
    rw [hfresh] at ha
    have hdead := hl.bound a ha
    rw [hkeep a ?_ ?_, hdead]
    · intro hm
      obtain ⟨n, hn⟩ := hl.alive (flatten_mem hcs hm)
      rw [hdead] at hn
      cases hn
    · intro hm
      obtain ⟨n, hn⟩ := hl.live a hm
      rw [hdead] at hn
      cases hn

theorem Linked.append {b : List (Option ℕ)} {h h' : ℕ → Option (ChainNode K P)}
    (hl : t.Linked cs free (a :: out)) (hcs : cs[i]? = some as)
    (hs : Stored t i as (some a) b h) (ha : h' a = some n) (hnull : n.next = none)
    (hh : ∀ c, c ≠ a → h' c = h c) :
    ({ t with bucket := b, heap := h' } : ChainTable K P E).Linked (cs.set i (as ++ [a])) free
      out := by
  have hnd := List.nodup_append.mp hl.nodup
  have haas : a ∉ as := fun hm => hnd.2.2 a (flatten_mem hcs hm) a (by simp) rfl
  have haout : a ∉ out := (List.nodup_cons.mp (List.nodup_append.mp hnd.2.1).2.1).1
  have hheap : ∀ c, c ∉ as → c ≠ a → h' c = t.heap c := fun c h1 h2 =>
    (hh c h2).trans (hs.heap c h1)
  apply hl.redirect hcs rfl hs.length hs.other
  · obtain ⟨p, hp, hpath⟩ := hs.path
    refine ⟨p, hp, path_concat.mpr ⟨?_, n, ha, hnull⟩⟩
    exact hpath.congr_eq (fun c hc => hh c (fun he => haas (he ▸ hc)))
  · exact fun c h1 h2 => hheap c h1 (fun he => h2 (by simp [he]))
  · rfl
  · rfl
  · simp
  · intro c hc
    obtain ⟨m, hm⟩ := hl.live c (List.mem_cons_of_mem a hc)
    refine ⟨m, ?_⟩
    rw [← hm]
    refine hheap c (fun h => ?_) (fun he => haout (he ▸ hc))
    exact hnd.2.2 c (flatten_mem hcs h) c (by simp [hc]) rfl

theorem perm_append_chain (hcs : cs[i]? = some as) :
    (cs.set i (as ++ [a])).flatten.Perm (cs.flatten ++ [a]) := by
  have hset := perm_flatten_set hcs (as ++ [a])
  rw [List.perm_iff_count] at hset ⊢
  intro x
  have h1 := hset x
  simp only [List.count_append] at h1 ⊢
  omega

theorem Placed.append {t' : ChainTable K P E} {key : K} (hp : Placed ops.toKeyOps t cs)
    (hsize : t'.size = t.size) (hentry : ∀ c ∈ cs.flatten, t'.entry c = t.entry c)
    (hcs : cs[homeOf ops t key]? = some as) (ha : t'.heap a = some n) (hkey : n.key = key)
    (habs : ops.find (t.entries cs.flatten) key = none) :
    Placed ops.toKeyOps t' (cs.set (homeOf ops t key) (as ++ [a])) := by
  have hlt : homeOf ops t key < cs.length := (List.getElem?_eq_some_iff.mp hcs).1
  have hsame : ∀ xs : List ℕ, xs ⊆ cs.flatten → t'.entries xs = t.entries xs := fun xs hx =>
    entries_congr (fun c hc => hentry c (hx hc))
  refine ⟨by rw [hsize]; exact hp.count, by rw [List.length_set, hp.length, hsize], ?_, ?_⟩
  · intro j xs hxs e he
    rw [hsize]
    by_cases hj : j = homeOf ops t key
    · subst hj
      rw [List.getElem?_set_self hlt] at hxs
      obtain rfl := Option.some.inj hxs
      rw [entries_append, entries_cons ha, entries_nil, List.mem_append, List.mem_singleton] at he
      rcases he with he | rfl
      · rw [hsame as (fun c hc => flatten_mem hcs hc)] at he
        exact hp.home _ as hcs e he
      · rw [hkey]
        rfl
    · rw [List.getElem?_set_ne (Ne.symm hj)] at hxs
      rw [hsame xs (fun c hc => flatten_mem hxs hc)] at he
      exact hp.home j xs hxs e he
  · have hperm := (perm_append_chain (a := a) hcs).trans List.perm_append_comm
    rw [KeyOps.distinct_perm (entries_perm hperm), List.singleton_append, entries_cons ha,
      hsame _ (List.Subset.refl _), KeyOps.distinct_cons, hkey]
    rw [KeyOps.find_eq_none] at habs
    exact ⟨fun x hx hc => habs x hx (ops.keycmp_symm _ _ hc), hp.distinct⟩

/-- What relinking keeps: everything but the bucket array and the links. -/
structure Relinked (t : ChainTable K P E) (cs : List (List ℕ)) (free out moved : List ℕ)
    (ops : TableOps K P E) (t' : ChainTable K P E) : Prop where
  frame : ∃ b h, t' = { t with bucket := b, heap := h }
  linked : ∃ cs', t'.Linked cs' free out ∧ Placed ops.toKeyOps t' cs' ∧
    cs'.flatten.Perm (cs.flatten ++ moved)
  entry : ∀ c, t'.entry c = t.entry c
  heap : ∀ c ∈ out, t'.heap c = t.heap c

theorem relink_one (hl : t.Linked cs free (a :: out)) (hp : Placed ops.toKeyOps t cs)
    (hn : t.heap a = some n) (habs : ops.find (t.entries cs.flatten) n.key = none) :
    ∃ s t₁ t₂, t.nodeLookup ops n.key = some s ∧ t.store (some a) s = some t₁ ∧
      t₁.store none (.next a) = some t₂ ∧ Relinked t cs free out [a] ops t₂ := by
  obtain ⟨as, has⟩ := hp.exists_home n.key
  obtain ⟨hlook, -⟩ := nodeLookup_absent hl has ((hp.absent_iff has).mpr habs)
  obtain ⟨p, hb, hch⟩ := hl.alive_of_lt has
  obtain ⟨b, h, hstore, hs⟩ := store_after hb hch (hl.nodup_chain has) (some a)
  have hnd := List.nodup_append.mp hl.nodup
  have hcs : a ∉ cs.flatten := fun hm => hnd.2.2 a hm a (by simp) rfl
  have hout : a ∉ out := (List.nodup_cons.mp (List.nodup_append.mp hnd.2.1).2.1).1
  have hha : h a = some n := by
    rw [hs.heap a (fun hm => hcs (flatten_mem has hm)), hn]
  let t₂ : ChainTable K P E :=
    { t with bucket := b, heap := (ChainNode.link K P).relink h a none }
  have ha : t₂.heap a = some { n with next := none } := by
    change (ChainNode.link K P).relink h a none a = _
    rw [relink_self, hha]
    rfl
  have hentry : ∀ c, t₂.entry c = t.entry c := fun c =>
    (entry_relink { t with bucket := b, heap := h } a c none).trans (hs.entry c)
  refine ⟨_, _, t₂, hlook, hstore, by simp [store, hha, t₂], ⟨b, _, rfl⟩, ?_, hentry, ?_⟩
  · refine ⟨_, hl.append has hs ha rfl (fun c hc => relink_of_ne hc), ?_, perm_append_chain has⟩
    exact hp.append rfl (fun c _ => hentry c) has ha rfl habs
  · intro c hc
    have hne : c ≠ a := fun he => hout (he ▸ hc)
    change (ChainNode.link K P).relink h a none c = _
    rw [relink_of_ne hne]
    exact hs.heap c (fun hm => hnd.2.2 c (flatten_mem has hm) c (by simp [hc]) rfl)

theorem Relinked.refl (hl : t.Linked cs free out) (hp : Placed ops.toKeyOps t cs) :
    Relinked t cs free out [] ops t :=
  ⟨⟨_, _, rfl⟩, ⟨cs, hl, hp, by simp⟩, fun _ => rfl, fun _ _ => rfl⟩

theorem relinkChain_spec {m : ℕ} (hl : t.Linked cs free (rest ++ out))
    (hp : Placed ops.toKeyOps t cs) (hch : t.Chain p rest)
    (hd : ops.Distinct (t.entries (cs.flatten ++ rest))) (hm : rest.length ≤ m) :
    ∃ t', relinkChain ops m p t = some t' ∧ Relinked t cs free out rest ops t' := by
  induction rest generalizing t cs p m with
  | nil =>
      obtain rfl : p = none := hch
      exact ⟨t, by cases m <;> rfl, Relinked.refl hl hp⟩
  | cons a rest ih =>
      obtain ⟨m, rfl⟩ : ∃ f, m = f + 1 := ⟨m - 1, by simp at hm; omega⟩
      obtain ⟨rfl, n, hn, hrest⟩ := hch
      have hd' := hd
      rw [entries_append, entries_cons hn] at hd'
      have habs : ops.find (t.entries cs.flatten) n.key = none :=
        KeyOps.find_eq_none.mpr (fun x hx => (List.pairwise_append.mp hd').2.2 x hx _
          List.mem_cons_self)
      obtain ⟨s, t₁, t₂, h1, h2, h3, hrel⟩ := relink_one hl hp hn habs
      obtain ⟨cs₂, hl₂, hp₂, hperm₂⟩ := hrel.linked
      have hchain₂ : t₂.Chain n.next rest :=
        hrest.congr_eq (fun c hc => hrel.heap c (List.mem_append_left _ hc))
      have hperm : (cs₂.flatten ++ rest).Perm (cs.flatten ++ a :: rest) := by
        simpa using hperm₂.append_right rest
      have hd₂ : ops.Distinct (t₂.entries (cs₂.flatten ++ rest)) := by
        rw [KeyOps.distinct_perm (entries_perm hperm), entries_congr (fun c _ => hrel.entry c)]
        exact hd
      obtain ⟨t₃, h4, hrel₃⟩ := ih hl₂ hp₂ hchain₂ hd₂ (m := m) (by simp at hm; omega)
      obtain ⟨cs₃, hl₃, hp₃, hperm₃⟩ := hrel₃.linked
      obtain ⟨b₂, e₂, rfl⟩ := hrel.frame
      obtain ⟨b₃, e₃, rfl⟩ := hrel₃.frame
      refine ⟨_, ?_, ⟨b₃, e₃, rfl⟩, ⟨cs₃, hl₃, hp₃, hperm₃.trans hperm⟩, ?_, ?_⟩
      · simp only [relinkChain, hn, h1, h2, h3, Option.bind_eq_bind, Option.bind_some, h4]
      · exact fun c => (hrel₃.entry c).trans (hrel.entry c)
      · exact fun c hc => (hrel₃.heap c hc).trans (hrel.heap c (List.mem_append_right _ hc))

theorem Linked.out_perm {out' : List ℕ} (hl : t.Linked cs free out) (h : out.Perm out') :
    t.Linked cs free out' := by
  refine ⟨hl.length, hl.chain, hl.pool, ?_, fun a ha => hl.live a (h.mem_iff.mpr ha), hl.bound⟩
  exact (((h.append_left free).append_left cs.flatten).nodup_iff).mp hl.nodup

theorem flatten_take_succ {rs : List (List ℕ)} {k : ℕ} (hk : rs[k]? = some as) :
    (rs.take (k + 1)).flatten = (rs.take k).flatten ++ as := by
  rw [List.take_add_one, hk, List.flatten_append]
  simp

/-- The relinking loop over the buckets `k - 1, …, 0` of the old array. -/
theorem relinkBuckets_spec {old : List (Option ℕ)} {rs : List (List ℕ)} {k : ℕ}
    (hk : k ≤ old.length) (hlen : old.length = rs.length)
    (hl : t.Linked cs free (rs.take k).flatten) (hp : Placed ops.toKeyOps t cs)
    (hch : ∀ (j : ℕ) p xs, j < k → old[j]? = some p → rs[j]? = some xs → t.Chain p xs)
    (hd : ops.Distinct (t.entries (cs.flatten ++ (rs.take k).flatten))) :
    ∃ t', relinkBuckets ops old k t = some t' ∧
      Relinked t cs free [] (rs.take k).flatten ops t' := by
  induction k generalizing t cs with
  | zero => exact ⟨t, rfl, by simpa using Relinked.refl (by simpa using hl) hp⟩
  | succ k ih =>
      have hold : old[k]? = some old[k] := List.getElem?_eq_getElem (by omega)
      have hrs : rs[k]? = some rs[k] := List.getElem?_eq_getElem (by omega)
      have hchk := hch k _ _ (by omega) hold hrs
      rw [flatten_take_succ hrs] at hl hd ⊢
      have hl' := hl.out_perm List.perm_append_comm
      have hnd : rs[k].Nodup :=
        (List.nodup_append.mp (List.nodup_append.mp (List.nodup_append.mp hl.nodup).2.1).2.1).2.1
      have hfuel := hl.length_le_fresh hchk hnd
      have hperm₁ : (cs.flatten ++ rs[k] ++ (rs.take k).flatten).Perm
          (cs.flatten ++ ((rs.take k).flatten ++ rs[k])) := by
        rw [List.append_assoc]
        exact List.perm_append_comm.append_left _
      have hd' : ops.Distinct (t.entries (cs.flatten ++ rs[k])) := by
        have hall := (KeyOps.distinct_perm (entries_perm hperm₁)).mpr hd
        rw [entries_append] at hall
        exact (List.pairwise_append.mp hall).1
      obtain ⟨t₁, h1, hrel⟩ := relinkChain_spec (m := t.fresh + 1) hl' hp hchk hd' (by omega)
      obtain ⟨cs₁, hl₁, hp₁, hcs₁⟩ := hrel.linked
      have hentry : ∀ xs, t₁.entries xs = t.entries xs := fun xs =>
        entries_congr (fun c _ => hrel.entry c)
      have hch₁ : ∀ (j : ℕ) p xs, j < k → old[j]? = some p → rs[j]? = some xs → t₁.Chain p xs := by
        intro j p xs hj hp hxs
        refine (hch j p xs (by omega) hp hxs).congr_eq (fun c hc => hrel.heap c ?_)
        refine List.mem_flatten.mpr ⟨xs, ?_, hc⟩
        exact List.mem_of_getElem? ((List.getElem?_take_of_lt hj).trans hxs)
      have hd₁ : ops.Distinct (t₁.entries (cs₁.flatten ++ (rs.take k).flatten)) := by
        rw [hentry, KeyOps.distinct_perm (entries_perm ((hcs₁.append_right _).trans hperm₁))]
        exact hd
      obtain ⟨t₂, h2, hrel₂⟩ := ih (by omega) hl₁ hp₁ hch₁ hd₁
      obtain ⟨cs₂, hl₂, hp₂, hcs₂⟩ := hrel₂.linked
      obtain ⟨b₁, e₁, rfl⟩ := hrel.frame
      obtain ⟨b₂, e₂, rfl⟩ := hrel₂.frame
      refine ⟨_, ?_, ⟨b₂, e₂, rfl⟩, ⟨cs₂, hl₂, hp₂, ?_⟩, ?_, by simp⟩
      · simp only [relinkBuckets, hold, h1, Option.bind_eq_bind, Option.bind_some, h2]
      · exact hcs₂.trans ((hcs₁.append_right _).trans hperm₁)
      · exact fun c => (hrel₂.entry c).trans (hrel.entry c)

theorem flatten_replicate_nil (k : ℕ) : (List.replicate k ([] : List ℕ)).flatten = [] := by
  simp

theorem linked_empty {k : ℕ} (hb : t.bucket = List.replicate k none) (hpool : t.Chain t.pool free)
    (hnd : (free ++ out).Nodup) (hlive : ∀ a ∈ out, ∃ n, t.heap a = some n)
    (hbound : ∀ a, t.fresh ≤ a → t.heap a = none) :
    t.Linked (List.replicate k []) free out := by
  refine ⟨by simp [hb], ?_, hpool, by simpa using hnd, hlive, hbound⟩
  intro j p as hp has
  rw [hb, List.getElem?_replicate] at hp
  rw [List.getElem?_replicate] at has
  split_ifs at hp has with hj
  obtain rfl := Option.some.inj hp
  obtain rfl := Option.some.inj has
  rfl

theorem placed_empty {e : ℕ} (he : 3 ≤ e) (hs : t.size = 2 ^ e) :
    Placed ops.toKeyOps t (List.replicate t.size []) := by
  refine ⟨⟨e, he, hs⟩, List.length_replicate, ?_, ?_⟩
  · intro j as has x hx
    rw [List.getElem?_replicate] at has
    split_ifs at has
    obtain rfl := Option.some.inj has
    cases hx
  · rw [flatten_replicate_nil]
    exact List.Pairwise.nil

/-- Resizing either is refused and changes nothing but the request counter, or moves
every node to an array of the rounded size. -/
theorem resize_spec {s : ℕ} (hl : t.Linked cs free []) (hp : Placed ops.toKeyOps t cs)
    (hs : 8 * nbucketRoundup s < 2 ^ 32) (hs63 : s ≤ 2 ^ 63) :
    ∃ rc t', t.resize ops s = some (rc, t') ∧
      ((rc = -1 ∧ t' = { t with requests := t.requests + 1 }) ∨
        (rc = 0 ∧ t'.size = nbucketRoundup s ∧
          (∃ b h, t' = { t with
            bucket := b, heap := h, size := nbucketRoundup s, requests := t.requests + 1 }) ∧
          (∀ c, t'.entry c = t.entry c) ∧
          ∃ cs', t'.Linked cs' free [] ∧ Placed ops.toKeyOps t' cs' ∧
            cs'.flatten.Perm cs.flatten)) := by
  by_cases hg : ops.granted t.requests
  · obtain ⟨e, he, h3, -, -⟩ := nbucketRoundup_spec hs63
    let t₀ : ChainTable K P E := { t with
      bucket := List.replicate (nbucketRoundup s) none, size := nbucketRoundup s,
      requests := t.requests + 1 }
    have hnd : (free ++ cs.flatten).Nodup := by
      have := hl.nodup
      rw [List.append_nil] at this
      exact (List.perm_append_comm.nodup_iff).mp this
    have hlen : t.bucket.length = cs.length := hl.length
    have htake : cs.take t.size = cs := by rw [← hp.length, List.take_length]
    have hl₀ : t₀.Linked (List.replicate (nbucketRoundup s) []) free (cs.take t.size).flatten := by
      rw [htake]
      exact linked_empty rfl hl.pool hnd (fun a ha => hl.alive ha) hl.bound
    have hp₀ : Placed ops.toKeyOps t₀ (List.replicate (nbucketRoundup s) []) :=
      placed_empty (t := t₀) h3 he
    have hd₀ : ops.Distinct (t₀.entries
        ((List.replicate (nbucketRoundup s) []).flatten ++ (cs.take t.size).flatten)) := by
      rw [flatten_replicate_nil, htake]
      exact hp.distinct
    obtain ⟨t', h1, hrel⟩ := relinkBuckets_spec (t := t₀) (by rw [hlen, hp.length]) hlen hl₀ hp₀
      (fun j p xs _ => hl.chain j p xs) hd₀
    obtain ⟨b, h, rfl⟩ := hrel.frame
    obtain ⟨cs', hl', hp', hcs'⟩ := hrel.linked
    refine ⟨0, _, ?_, Or.inr ⟨rfl, rfl, ⟨b, h, rfl⟩, hrel.entry, cs', hl', hp', ?_⟩⟩
    · simp only [resize, bucketAlloc, request, hg, if_true, if_pos hs, Option.pure_def,
        Option.bind_eq_bind, Option.bind_some, h1, t₀] at h1 ⊢
    · rw [flatten_replicate_nil, htake] at hcs'
      exact hcs'
  · refine ⟨-1, _, ?_, Or.inl ⟨rfl, rfl⟩⟩
    simp [resize, bucketAlloc, request, hg]

end ChainTable

end Carthage
