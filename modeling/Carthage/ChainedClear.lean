import Carthage.ChainedErase

/-!
# Clearing, traversing and creating a chained table

Clearing frees the nodes of every bucket, the bucket pointing to freed nodes until it is
nulled; the traversal visits the buckets in the same order.
-/

namespace Carthage

namespace ChainTable

open LinkField

variable {K P E : Type} {ops : TableOps K P E} {t : ChainTable K P E} {cs : List (List ℕ)}
  {free out rest as : List ℕ} {i a k : ℕ} {p : Option ℕ} {n : ChainNode K P} {L : List (K × P)}

theorem nodeFree_bucket (b : List (Option ℕ)) :
    ({ t with bucket := b } : ChainTable K P E).nodeFree ops a =
      (t.nodeFree ops a).map (fun t' => { t' with bucket := b }) := by
  cases hn : t.heap a with
  | none => simp [nodeFree, hn]
  | some n =>
      by_cases h : t.poolSize < ops.poolMax <;> simp [nodeFree, hn, h]

theorem clearChain_bucket (m : ℕ) (b : List (Option ℕ)) :
    clearChain ops m p ({ t with bucket := b } : ChainTable K P E) =
      (clearChain ops m p t).map (fun t' => { t' with bucket := b }) := by
  induction m generalizing p t with
  | zero => cases p <;> rfl
  | succ m ih =>
      cases p with
      | none => rfl
      | some a =>
          cases hn : t.heap a with
          | none => simp [clearChain, hn]
          | some n =>
              rw [clearChain, clearChain]
              simp only [hn, Option.bind_eq_bind, Option.bind_some, nodeFree_bucket]
              cases hf : t.nodeFree ops a with
              | none => rfl
              | some t' => simp only [Option.map_some, Option.bind_some, ih]

def releases (ops : TableOps K P E) (L : List (K × P)) : List E :=
  L.flatMap (fun e => ops.released e.1 e.2)

variable (ops) in
theorem clearChain_spec {m : ℕ} (hl : t.Linked cs free (rest ++ out))
    (hps : t.poolSize = free.length) (hch : t.Chain p rest) (hm : rest.length ≤ m) :
    ∃ t' free', clearChain ops m p t = some t' ∧ t'.Linked cs free' out ∧
      t'.poolSize = free'.length ∧
      (∃ h q j, t' = { t with
        heap := h, pool := q, poolSize := j,
        calls := t.calls ++ releases ops (t.entries rest) }) ∧
      ∀ c, c ∉ rest → t'.heap c = t.heap c := by
  induction rest generalizing t free p m with
  | nil =>
      obtain rfl : p = none := hch
      exact ⟨t, free, by cases m <;> rfl, hl, hps, ⟨_, _, _, by simp [releases]; rfl⟩, fun _ _ => rfl⟩
  | cons a rest ih =>
      obtain ⟨m, rfl⟩ : ∃ f, m = f + 1 := ⟨m - 1, by simp at hm; omega⟩
      obtain ⟨rfl, n, hn, hrest⟩ := hch
      obtain ⟨t₁, free₁, h1, hl₁, hps₁, -, ⟨g, q, j, ht₁⟩, hkeep⟩ :=
        nodeFree_spec ops hl hps hn
      have harest : a ∉ rest := by
        have := (List.nodup_append.mp (List.nodup_append.mp hl.nodup).2.1).2.1
        exact fun hm => (List.nodup_cons.mp this).1 (List.mem_append_left _ hm)
      have hne : ∀ c ∈ rest, c ≠ a := fun c hc he => harest (he ▸ hc)
      have hrest₁ : t₁.Chain n.next rest := hrest.congr_eq (fun c hc => hkeep c (hne c hc))
      obtain ⟨t₂, free₂, h2, hl₂, hps₂, ⟨g₂, q₂, j₂, ht₂⟩, hkeep₂⟩ :=
        ih hl₁ hps₁ hrest₁ (m := m) (by simp at hm; omega)
      have hentries : t₁.entries rest = t.entries rest := entries_congr (fun c hc => by
        simp only [entry, hkeep c (hne c hc)])
      refine ⟨t₂, free₂, ?_, hl₂, hps₂, ⟨g₂, q₂, j₂, ?_⟩, ?_⟩
      · simp only [clearChain, hn, h1, h2, Option.bind_eq_bind, Option.bind_some]
      · rw [ht₂, hentries, entries_cons hn, ht₁]
        simp [releases]
      · intro c hc
        rw [List.mem_cons, not_or] at hc
        rw [hkeep₂ c hc.2, hkeep c hc.1]

theorem releases_perm {M : List (K × P)} (h : L.Perm M) :
    (releases ops L).Perm (releases ops M) := h.flatMap_right _

theorem releases_append (M : List (K × P)) :
    releases ops (L ++ M) = releases ops L ++ releases ops M := List.flatMap_append

variable (ops) in
theorem clearBucket_spec (hl : t.Linked cs free []) (hps : t.poolSize = free.length)
    (hb : t.bucket[k]? = some p) (has : cs[k]? = some as) :
    ∃ t₁ t₂ free', clearChain ops (t.fresh + 1) p t = some t₁ ∧
      t₂ = { t₁ with bucket := t₁.bucket.set k none } ∧ t₂.Linked (cs.set k []) free' [] ∧
      t₂.poolSize = free'.length ∧
      (∃ h q j, t₂ = { t with
        bucket := t.bucket.set k none, heap := h, pool := q, poolSize := j,
        calls := t.calls ++ releases ops (t.entries as) }) ∧
      ∀ c, c ∉ as → t₂.heap c = t.heap c := by
  have hch := hl.chain k p as hb has
  have hk : k < t.bucket.length := (List.getElem?_eq_some_iff.mp hb).1
  let t₀ : ChainTable K P E := { t with bucket := t.bucket.set k none }
  have hnulled : t₀.Linked (cs.set k []) free (as ++ []) := by
    rw [List.append_nil]
    apply hl.redirect has rfl
    · exact List.length_set
    · exact fun j hj => List.getElem?_set_ne (Ne.symm hj)
    · exact ⟨none, List.getElem?_set_self hk, rfl⟩
    · exact fun _ _ _ => rfl
    · rfl
    · rfl
    · simp
    · exact fun a ha => LinkField.Path.alive hch ha
  have hfuel := hl.length_le_fresh hch (hl.nodup_chain has)
  obtain ⟨t₂, free', h2, hl₂, hps₂, ⟨g, q, j, ht₂⟩, hkeep⟩ :=
    clearChain_spec ops (t := t₀) hnulled hps hch (m := t.fresh + 1) (by omega)
  rw [clearChain_bucket] at h2
  obtain ⟨t₁, h1, rfl⟩ := Option.map_eq_some_iff.mp h2
  have hbucket : t₁.bucket = t.bucket := by
    have hself : clearChain ops (t.fresh + 1) p t = _ :=
      clearChain_bucket (t := t) (t.fresh + 1) t.bucket
    rw [h1, Option.map_some] at hself
    have heq := Option.some.inj hself
    rw [heq]
  refine ⟨t₁, _, free', h1, by rw [hbucket], hl₂, hps₂, ⟨g, q, j, ht₂⟩, hkeep⟩

variable (ops) in
theorem clearBuckets_spec (hl : t.Linked cs free []) (hps : t.poolSize = free.length)
    (hk : k ≤ cs.length) :
    ∃ t' free' evs, clearBuckets ops k t = some t' ∧
      t'.Linked (List.replicate k [] ++ cs.drop k) free' [] ∧ t'.poolSize = free'.length ∧
      t'.size = t.size ∧ t'.calls = t.calls ++ evs ∧
      evs.Perm (releases ops (t.entries (cs.take k).flatten)) := by
  induction k generalizing t cs free with
  | zero => exact ⟨t, free, [], rfl, by simpa using hl, hps, rfl, by simp, by simp [releases]⟩
  | succ k ih =>
      have has : cs[k]? = some cs[k] := List.getElem?_eq_getElem (by omega)
      obtain ⟨p, hb, -⟩ := hl.alive_of_lt has
      obtain ⟨t₁, t₂, free₂, h1, rfl, hl₂, hps₂, ⟨g, q, j, ht₂⟩, hkeep⟩ :=
        clearBucket_spec ops hl hps hb has
      obtain ⟨t₃, free₃, evs, h3, hl₃, hps₃, hsize₃, hcalls₃, hevs⟩ :=
        ih hl₂ hps₂ (by rw [List.length_set]; omega)
      have htake : (cs.set k []).take k = cs.take k := by
        rw [List.take_set_of_le (Nat.le_refl k)]
      have hkept : ∀ c ∈ (cs.take k).flatten, t₁.entry c = t.entry c := by
        intro c hc
        obtain ⟨xs, hxs, hcx⟩ := List.mem_flatten.mp hc
        obtain ⟨i, hi⟩ := List.mem_iff_getElem?.mp hxs
        have hik : i < k := by
          have := (List.getElem?_eq_some_iff.mp hi).1
          simp at this
          omega
        rw [List.getElem?_take_of_lt hik] at hi
        have hheap := hkeep c (hl.notMem_of_ne hi has (by omega) hcx)
        exact congrArg (Option.map _) hheap
      rw [htake] at hevs
      refine ⟨t₃, free₃, releases ops (t.entries cs[k]) ++ evs, ?_, ?_, hps₃, ?_, ?_, ?_⟩
      · simp only [clearBuckets, hb, h1, h3, Option.bind_eq_bind, Option.bind_some]
      · have hdrop : List.replicate k [] ++ (cs.set k []).drop k =
            List.replicate (k + 1) [] ++ cs.drop (k + 1) := by
          rw [List.drop_eq_getElem_cons (by rw [List.length_set]; omega), List.getElem_set_self,
            List.drop_set_of_lt (Nat.lt_succ_self k), List.replicate_succ', List.append_assoc]
          rfl
        rw [← hdrop]
        exact hl₃
      · rw [hsize₃, ht₂]
      · rw [hcalls₃, ht₂, List.append_assoc]
      · rw [flatten_take_succ has, entries_append, releases_append]
        refine (List.perm_append_comm).trans ?_
        refine (hevs.append_right _).trans ?_
        have hsame : ({ t₁ with bucket := t₁.bucket.set k none } : ChainTable K P E).entries
            (cs.take k).flatten = t.entries (cs.take k).flatten := entries_congr hkept
        rw [hsame]

theorem Holds.clear (h : Holds ops t L) :
    ∃ t' evs, t.clear ops = some t' ∧ Holds ops t' [] ∧ t'.calls = t.calls ++ evs ∧
      evs.Perm (releases ops L) := by
  obtain ⟨cs, free, hat, hperm⟩ := h
  obtain ⟨t₁, free₁, evs, h1, hl₁, hps₁, hsize₁, hcalls₁, hevs⟩ :=
    clearBuckets_spec ops hat.linked hat.poolSize (Nat.le_refl cs.length)
  rw [List.take_length] at hevs
  rw [List.drop_length, List.append_nil] at hl₁
  let t₂ : ChainTable K P E := { t₁ with used := 0 }
  have hlen : cs.length = t.size := hat.placed.length
  have h₂ : Holds ops t₂ [] := by
    obtain ⟨e, h3, he⟩ := hat.placed.count
    refine ⟨List.replicate cs.length [], free₁, ⟨⟨hl₁.length, hl₁.chain, hl₁.pool, hl₁.nodup,
      hl₁.live, hl₁.bound⟩, ?_, ?_, hps₁, ?_⟩, ?_⟩
    · rw [hlen, ← hsize₁]
      exact placed_empty (t := t₂) h3 (hsize₁.trans he)
    · rw [flatten_replicate_nil]
      rfl
    · change 8 * t₁.size < 2 ^ 32
      rw [hsize₁]
      exact hat.small
    · rw [flatten_replicate_nil]
      rfl
  have hall : evs.Perm (releases ops L) := hevs.trans (releases_perm hperm)
  rw [hlen] at h1
  by_cases hbig : 1024 < t₂.size
  · obtain ⟨hs32, hs63⟩ := h₂.shrink_small (Nat.shiftRight_le t₂.size 3)
    obtain ⟨rc, t₃, hres, h₃, hcalls₃, -⟩ := h₂.resize hs32 hs63
    refine ⟨t₃, evs, ?_, h₃, hcalls₃.trans hcalls₁, hall⟩
    simp only [t₂] at hbig hres
    simp [ChainTable.clear, h1, hbig, hres]
  · refine ⟨t₂, evs, ?_, h₂, hcalls₁, hall⟩
    simp only [t₂] at hbig
    simp [ChainTable.clear, h1, hbig, t₂]

theorem visitChain_spec {m : ℕ} (hch : t.Chain p as) (hm : as.length ≤ m) :
    t.visitChain m p = some (t.entries as) := by
  induction as generalizing p m with
  | nil =>
      obtain rfl : p = none := hch
      cases m <;> rfl
  | cons a as ih =>
      obtain ⟨m, rfl⟩ : ∃ f, m = f + 1 := ⟨m - 1, by simp at hm; omega⟩
      obtain ⟨rfl, n, hn, hrest⟩ := hch
      have hvisit : t.visitChain m n.next = some (t.entries as) :=
        ih hrest (by simp at hm; omega)
      rw [entries_cons hn, visitChain]
      simp [hn, hvisit]

theorem visitBuckets_spec (hl : t.Linked cs free out) (hk : k ≤ cs.length) :
    ∃ M, t.visitBuckets k = some M ∧ M.Perm (t.entries (cs.take k).flatten) := by
  induction k with
  | zero => exact ⟨[], rfl, by simp⟩
  | succ k ih =>
      have has : cs[k]? = some cs[k] := List.getElem?_eq_getElem (by omega)
      obtain ⟨p, hb, hch⟩ := hl.alive_of_lt has
      obtain ⟨M, hM, hperm⟩ := ih (by omega)
      have hfuel := hl.length_le_fresh hch (hl.nodup_chain has)
      refine ⟨t.entries cs[k] ++ M, ?_, ?_⟩
      · simp only [visitBuckets, hb, visitChain_spec hch (Nat.le_succ_of_le hfuel), hM,
          Option.bind_eq_bind, Option.bind_some, Option.pure_def]
      · rw [flatten_take_succ has, entries_append]
        exact List.perm_append_comm.trans (hperm.append_right _)

theorem Holds.foreach (h : Holds ops t L) : ∃ M, t.foreach = some M ∧ M.Perm L := by
  obtain ⟨cs, free, hat, hperm⟩ := h
  obtain ⟨M, hM, hpM⟩ := visitBuckets_spec hat.linked (Nat.le_refl cs.length)
  rw [List.take_length] at hpM
  rw [hat.placed.length] at hM
  exact ⟨M, hM, hpM.trans hperm⟩

variable (ops) in
theorem create_spec {s : ℕ} (hs : 8 * nbucketRoundup s < 2 ^ 32) (hs63 : s ≤ 2 ^ 63) :
    (ops.granted 0 = false ∧ create ops s = some none) ∨
      ∃ t, create ops s = some (some t) ∧ (Holds ops t [] ∧ t.calls = []) ∧
        t.size = nbucketRoundup s := by
  obtain ⟨e, he, h3, -, -⟩ := nbucketRoundup_spec hs63
  by_cases hg : ops.granted 0
  · let t : ChainTable K P E := {
      bucket := List.replicate (nbucketRoundup s) none, size := nbucketRoundup s, used := 0,
      pool := none, poolSize := 0, heap := fun _ => none, fresh := 0, requests := 1, calls := [] }
    have hcreate : create ops s = some (some t) := by
      simp only [create, bucketAlloc, request, hg, if_true, if_pos hs, Option.bind_eq_bind,
        Option.bind_some, Option.pure_def, t]
    refine Or.inr ⟨t, hcreate, ⟨?_, rfl⟩, rfl⟩
    refine ⟨List.replicate (nbucketRoundup s) [], [], ⟨?_, ?_, ?_, rfl, hs⟩, ?_⟩
    · exact linked_empty rfl rfl (by simp) (by simp) (fun _ _ => rfl)
    · exact placed_empty h3 he
    · rw [flatten_replicate_nil]
      rfl
    · rw [flatten_replicate_nil]
      rfl
  · refine Or.inl ⟨by simpa using hg, ?_⟩
    simp [create, bucketAlloc, request, hg]

theorem create_holds {s : ℕ} (hs : s ≤ 2 ^ 28) (ht : create ops s = some (some t)) :
    Holds ops t [] ∧ t.calls = [] := by
  have hround := nbucketRoundup_lt hs
  rcases create_spec ops (s := s) (by omega) (hs.trans (by norm_num)) with
    ⟨-, hno⟩ | ⟨t₁, hyes, h₁⟩
  · rw [hno] at ht
    cases Option.some.inj ht
  · rw [hyes] at ht
    obtain rfl := Option.some.inj (Option.some.inj ht)
    exact h₁.1

end ChainTable

end Carthage
