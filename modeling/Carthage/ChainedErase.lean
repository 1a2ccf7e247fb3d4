import Carthage.ChainedOps

/-!
# Overwriting and removing entries of a chained table

Both start from the node that the lookup finds. Overwriting changes one payload and no
link; removal unlinks the node from its chain, hands it to the free functions and to
the pool, and may shrink the array.
-/

namespace Carthage

namespace ChainTable

open LinkField

variable {K P E : Type} {ops : TableOps K P E} {t : ChainTable K P E} {cs : List (List ℕ)}
  {free : List ℕ} {i a : ℕ} {n : ChainNode K P} {L : List (K × P)} {e : K × P} {key : K}

theorem HoldsAt.found (hat : HoldsAt ops t cs free)
    (hk : ops.find (t.entries cs.flatten) key = some e) :
    ∃ pre a post n, cs[homeOf ops t key]? = some (pre ++ a :: post) ∧
      t.nodeLookup ops key = some (Slot.after (homeOf ops t key) pre) ∧
      t.load (Slot.after (homeOf ops t key) pre) = some (some a) ∧
      t.heap a = some n ∧ (n.key, n.payload) = e := by
  obtain ⟨pre, a, post, n, hcs, hne, hn, he⟩ := hat.placed.exists_split hk
  have hkey : ops.keycmp n.key key = 0 := by
    have := (KeyOps.mem_of_find hk).2
    rwa [← he] at this
  obtain ⟨hlook, hload⟩ := ChainTable.nodeLookup_found hat.linked hcs hne hn hkey
  exact ⟨pre, a, post, n, hcs, hlook, hload, hn, he⟩

theorem perm_take_out {post pre : List ℕ} (hcs : cs[i]? = some (pre ++ a :: post)) :
    cs.flatten.Perm (a :: (cs.set i (pre ++ post)).flatten) := by
  have hset := perm_flatten_set hcs (pre ++ post)
  rw [List.perm_iff_count] at hset ⊢
  intro x
  have h1 := hset x
  simp only [List.count_append, List.count_cons] at h1 ⊢
  omega

theorem entries_take_out {rest : List ℕ} {M : List (K × P)} (hrest : cs.flatten.Perm (a :: rest))
    (hn : t.heap a = some n) (hperm : (t.entries cs.flatten).Perm L)
    (hM : L.Perm ((n.key, n.payload) :: M)) : (t.entries rest).Perm M := by
  have h1 := (entries_perm hrest (t := t)).symm.trans (hperm.trans hM)
  rw [entries_cons hn] at h1
  exact h1.cons_inv

theorem HoldsAt.setPayload {v : P} {rest : List ℕ} (hat : HoldsAt ops t cs free)
    (hrest : cs.flatten.Perm (a :: rest)) (hn : t.heap a = some n) :
    HoldsAt ops (t.setPayload a n v) cs free ∧
      ((t.setPayload a n v).entries cs.flatten).Perm ((n.key, v) :: t.entries rest) := by
  have hkeep : ∀ c, c ≠ a → (t.setPayload a n v).heap c = t.heap c := fun c hc =>
    Function.update_of_ne hc _ _
  have ha : (t.setPayload a n v).heap a = some { n with payload := v } :=
    Function.update_self _ _ _
  have hlink : ∀ c, ((t.setPayload a n v).heap c).map (ChainNode.link K P).get =
      (t.heap c).map (ChainNode.link K P).get := by
    intro c
    by_cases hc : c = a
    · rw [hc, ha, hn]
      rfl
    · rw [hkeep c hc]
  have harest : a ∉ rest :=
    (List.nodup_cons.mp (hrest.nodup_iff.mp hat.linked.nodup_flatten)).1
  have hentries : ((t.setPayload a n v).entries cs.flatten).Perm
      ((n.key, v) :: t.entries rest) := by
    refine (entries_perm hrest).trans ?_
    rw [entries_cons ha, entries_congr (fun c hc => ?_)]
    simp only [entry, hkeep c (fun he => harest (he ▸ hc))]
  refine ⟨⟨⟨hat.linked.length, ?_, ?_, hat.linked.nodup, by simp, ?_⟩, ⟨hat.placed.count,
    hat.placed.length, ?_, ?_⟩, hat.used, hat.poolSize, hat.small⟩, hentries⟩
  · exact fun j p xs hp hxs => (hat.linked.chain j p xs hp hxs).congr (fun c _ => hlink c)
  · exact hat.linked.pool.congr (fun c _ => hlink c)
  · intro c hc
    have hca : c ≠ a := fun he => absurd (hat.linked.lt_fresh hn) (Nat.not_lt.mpr (he ▸ hc))
    exact (hkeep c hca).trans (hat.linked.bound c hc)
  · intro j xs hxs x hx
    obtain ⟨c, hc, hcx⟩ := mem_entries.mp hx
    by_cases hca : c = a
    · subst hca
      rw [entry_eq ha] at hcx
      obtain rfl := Option.some.inj hcx
      exact hat.placed.home j xs hxs (n.key, n.payload) (mem_entries.mpr ⟨c, hc, entry_eq hn⟩)
    · refine hat.placed.home j xs hxs x (mem_entries.mpr ⟨c, hc, ?_⟩)
      rw [← hcx]
      simp only [entry, hkeep c hca]
  · have hold := (KeyOps.distinct_perm (entries_perm hrest)).mp hat.placed.distinct
    rw [entries_cons hn, KeyOps.distinct_cons] at hold
    rw [KeyOps.distinct_perm hentries, KeyOps.distinct_cons]
    exact hold

theorem load_setPayload {v : P} (hn : t.heap a = some n) (s : Slot) :
    (t.setPayload a n v).load s = t.load s := by
  cases s with
  | bucket i => rfl
  | next c =>
      by_cases hc : c = a
      · simp [load, ChainTable.setPayload, hc, hn]
      · simp [load, ChainTable.setPayload, Function.update_of_ne hc]

theorem walk_setPayload {v : P} (hn : t.heap a = some n) (m : ℕ) (s : Slot) :
    (t.setPayload a n v).walk ops key m s = t.walk ops key m s := by
  induction m generalizing s with
  | zero => rfl
  | succ m ih =>
      simp only [walk, load_setPayload hn, ih]
      congr 1
      funext q
      cases q with
      | none => rfl
      | some c =>
          by_cases hc : c = a
          · simp [ChainTable.setPayload, hc, hn]
          · simp [ChainTable.setPayload, Function.update_of_ne hc]

theorem nodeLookup_setPayload {v : P} (hn : t.heap a = some n) (key : K) :
    (t.setPayload a n v).nodeLookup ops key = t.nodeLookup ops key := walk_setPayload hn _ _

theorem Holds.setPayload {M : List (K × P)} (h : Holds ops t L)
    (hk : ops.find L key = some e) (hM : L.Perm (e :: M)) :
    ∃ s a n, t.nodeLookup ops key = some s ∧ t.load s = some (some a) ∧ t.heap a = some n ∧
      (n.key, n.payload) = e ∧ ∀ v, Holds ops (t.setPayload a n v) ((e.1, v) :: M) := by
  obtain ⟨cs, free, hat, hperm⟩ := h
  rw [← Holds.find_eq hat hperm] at hk
  obtain ⟨pre, a, post, n, hcs, hlook, hload, hn, rfl⟩ := hat.found hk
  refine ⟨_, a, n, hlook, hload, hn, rfl, fun v => ?_⟩
  have hrest := perm_take_out hcs
  obtain ⟨hat', hentries⟩ := hat.setPayload (v := v) hrest hn
  exact ⟨cs, free, hat', hentries.trans ((entries_take_out hrest hn hperm hM).cons _)⟩

theorem Placed.take_out {pre post : List ℕ} {t' : ChainTable K P E} {key : K}
    (hp : Placed ops.toKeyOps t cs) (hcs : cs[homeOf ops t key]? = some (pre ++ a :: post))
    (hsize : t'.size = t.size) (hnd : cs.flatten.Nodup)
    (hentry : ∀ c, c ≠ a → t'.entry c = t.entry c) :
    Placed ops.toKeyOps t' (cs.set (homeOf ops t key) (pre ++ post)) ∧
      t'.entries (cs.set (homeOf ops t key) (pre ++ post)).flatten =
        t.entries (cs.set (homeOf ops t key) (pre ++ post)).flatten := by
  have hrest := perm_take_out hcs
  have harest := (List.nodup_cons.mp (hrest.nodup_iff.mp hnd)).1
  have hsame : ∀ xs : List ℕ, (∀ c ∈ xs, c ∈ (cs.set (homeOf ops t key) (pre ++ post)).flatten) →
      t'.entries xs = t.entries xs := fun xs hxs =>
    entries_congr (fun c hc => hentry c (fun he => harest (he ▸ hxs c hc)))
  refine ⟨⟨by rw [hsize]; exact hp.count, by rw [List.length_set, hp.length, hsize], ?_, ?_⟩,
    hsame _ (fun c hc => hc)⟩
  · intro j xs hxs x hx
    rw [hsame xs (fun c hc => flatten_mem hxs hc)] at hx
    rw [hsize]
    by_cases hj : j = homeOf ops t key
    · subst hj
      rw [List.getElem?_set_self (List.getElem?_eq_some_iff.mp hcs).1] at hxs
      obtain rfl := Option.some.inj hxs
      obtain ⟨c, hc, hcx⟩ := mem_entries.mp hx
      refine hp.home _ _ hcs x (mem_entries.mpr ⟨c, ?_, hcx⟩)
      rcases List.mem_append.mp hc with hc | hc
      · exact List.mem_append_left _ hc
      · exact List.mem_append_right _ (List.mem_cons_of_mem a hc)
    · rw [List.getElem?_set_ne (Ne.symm hj)] at hxs
      exact hp.home j xs hxs x hx
  · rw [hsame _ (fun c hc => hc)]
    have hall := (KeyOps.distinct_perm (entries_perm hrest)).mp hp.distinct
    rw [show a :: (cs.set (homeOf ops t key) (pre ++ post)).flatten =
      [a] ++ (cs.set (homeOf ops t key) (pre ++ post)).flatten from rfl, entries_append] at hall
    exact (List.pairwise_append.mp hall).2.1

/-- Removing the node of a stored key reports it to the free functions once and leaves the
rest of the content, whether or not the table shrinks afterwards. -/
theorem Holds.dropNode {M : List (K × P)} (h : Holds ops t L) (hk : ops.find L key = some e)
    (hM : L.Perm (e :: M)) :
    ∃ s a n, t.nodeLookup ops key = some s ∧ t.load s = some (some a) ∧ t.heap a = some n ∧
      (n.key, n.payload) = e ∧
      ∃ t', t.dropNode ops s a = some t' ∧ Holds ops t' M ∧
        t'.calls = t.calls ++ ops.released e.1 e.2 := by
  obtain ⟨cs, free, hat, hperm⟩ := h
  rw [← Holds.find_eq hat hperm] at hk
  obtain ⟨pre, a, post, n, hcs, hlook, hload, hn, rfl⟩ := hat.found hk
  refine ⟨_, a, n, hlook, hload, hn, rfl, ?_⟩
  have hrest := perm_take_out hcs
  have hentries := entries_take_out hrest hn hperm hM
  obtain ⟨p, hb, hch⟩ := hat.linked.alive_of_lt hcs
  obtain ⟨r, hpre, rfl, n', hn', hpost⟩ := path_append.mp hch
  rw [hn] at hn'
  obtain rfl := Option.some.inj hn'
  have hndc := hat.linked.nodup_chain hcs
  have hndpre : pre.Nodup := (List.nodup_append.mp hndc).1
  have hdisj := (List.nodup_append.mp hndc).2.2
  have hapost : a ∉ post := (List.nodup_cons.mp (List.nodup_append.mp hndc).2.1).1
  obtain ⟨b, g, hstore, hs⟩ := store_after hb hpre hndpre n.next
  have hapre : a ∉ pre := fun hm => hdisj a hm a List.mem_cons_self rfl
  let t₁ : ChainTable K P E := { t with bucket := b, heap := g }
  have hn₁ : t₁.heap a = some n := (hs.heap a hapre).trans hn
  have hl₁ : t₁.Linked (cs.set (homeOf ops t key) (pre ++ post)) free [a] := by
    apply hat.linked.redirect hcs rfl hs.length hs.other
    · obtain ⟨p', hp', hpath⟩ := hs.path
      refine ⟨p', hp', path_append.mpr ⟨n.next, hpath, hpost.congr_eq (fun c hc => hs.heap c ?_)⟩⟩
      exact fun hm => hdisj c hm c (List.mem_cons_of_mem a hc) rfl
    · exact fun c _ h2 => hs.heap c (fun hm => h2 (List.mem_append_left _ hm))
    · rfl
    · rfl
    · have hswap : (post ++ [a]).Perm (a :: post) := List.perm_append_comm
      simpa using hswap.append_left pre
    · intro c hc
      obtain rfl := List.mem_singleton.mp hc
      exact ⟨n, hn₁⟩
  obtain ⟨t₂, free', hfreed, hl₂, hps₂, hcalls₂, ⟨h₂, p₂, m₂, ht₂⟩, hkeep₂⟩ :=
    nodeFree_spec ops hl₁ hat.poolSize hn₁
  have hentry : ∀ c, c ≠ a → t₂.entry c = t.entry c := by
    intro c hc
    rw [← hs.entry c]
    simp only [entry, hkeep₂ c hc, t₁]
  have hsize : t₂.size = t.size := by rw [ht₂]
  obtain ⟨hp₂, hsame⟩ :=
    hat.placed.take_out hcs hsize hat.linked.nodup_flatten hentry
  have hused : t.used - 1 = (cs.set (homeOf ops t key) (pre ++ post)).flatten.length := by
    rw [hat.used, hrest.length_eq]
    rfl
  let t₃ : ChainTable K P E := { t₂ with used := t₂.used - 1 }
  have h₃ : Holds ops t₃ M := by
    refine ⟨cs.set (homeOf ops t key) (pre ++ post), free', ⟨⟨hl₂.length, hl₂.chain, hl₂.pool,
      hl₂.nodup, hl₂.live, hl₂.bound⟩, ⟨hp₂.count, hp₂.length, hp₂.home, hp₂.distinct⟩, ?_, hps₂,
      ?_⟩, ?_⟩
    · rw [← hused]
      simp only [t₃, ht₂, t₁]
    · change 8 * t₂.size < 2 ^ 32
      rw [hsize]
      exact hat.small
    · change (t₂.entries _).Perm M
      rw [hsame]
      exact hentries
  by_cases hsmall : t₃.used < (t₃.size >>> 1) - (t₃.size >>> 2)
  · obtain ⟨hs32, hs63⟩ := h₃.shrink_small (Nat.shiftRight_le t₃.size 1)
    obtain ⟨rc, t₄, hres, h₄, hcalls₄, -⟩ := h₃.resize hs32 hs63
    refine ⟨t₄, ?_, h₄, hcalls₄.trans hcalls₂⟩
    simp only [ChainTable.dropNode, hn, hstore, hfreed, Option.bind_eq_bind, Option.bind_some, t₁,
      t₃] at hfreed hsmall hres ⊢
    simp [hsmall, hres]
  · refine ⟨t₃, ?_, h₃, hcalls₂⟩
    simp only [ChainTable.dropNode, hn, hstore, hfreed, Option.bind_eq_bind, Option.bind_some, t₁,
      t₃] at hfreed hsmall ⊢
    simp [hsmall]

end ChainTable

end Carthage
