import Carthage.MpoolTiling

/-!
# Allocating from a pool

An allocation scans the chunks, merging free ones that follow one another, and takes the first
that is large enough.
-/

namespace Carthage

variable {m m' : Mpool} {size p n k fuel : ℕ} {pre rest cs : List (Bool × ℕ)}

/-! ## Merging -/

/-- How merging from a free chunk of `n` bytes ends, `gone` being merged and `rest` behind it. -/
inductive MergeEnds (size p n : ℕ) (gone : List (Bool × ℕ)) : List (Bool × ℕ) → MpoolScan → Prop
  | fits (rest : List (Bool × ℕ)) :
      size ≤ n + extent gone → MergeEnds size p n gone rest (.fits (n + extent gone))
  | next (k : ℕ) (rest : List (Bool × ℕ)) : n + extent gone < size →
      MergeEnds size p n gone ((true, k) :: rest) (.next (p + 4 + (n + extent gone) + 4 + k))
  | full : n + extent gone < size → MergeEnds size p n gone [] .full

/-- Merging takes free chunks as long as there is not enough, keeps the region tiled and stores
in no block. -/
theorem mpoolMerge_spec (size : ℕ) (h : m.TiledBy (pre ++ (false, n) :: rest))
    (hfuel : rest.length < fuel) :
    ∃ gone rest' r m', rest = gone ++ rest' ∧ (∀ c ∈ gone, c.1 = false) ∧
      (∀ y c z, gone = y ++ c :: z → n + extent y < size) ∧
      mpoolMerge size (extent pre) fuel m n = some (r, m') ∧
      m.Becomes m' (pre ++ (false, n + extent gone) :: rest')
        (usedBlocks 0 (pre ++ (false, n) :: rest)) ∧
      (m.free = freeBytes (pre ++ (false, n) :: rest) →
        m'.free = freeBytes (pre ++ (false, n + extent gone) :: rest')) ∧
      MergeEnds size (extent pre) n gone rest' r := by
  induction fuel generalizing m n rest with
  | zero => omega
  | succ fuel ih =>
      have hstay : m.Becomes m (pre ++ (false, n) :: rest)
          (usedBlocks 0 (pre ++ (false, n) :: rest)) := ⟨rfl, h, KeepsBlocks.refl _ m⟩
      have hnone : ∀ y c z, ([] : List (Bool × ℕ)) = y ++ c :: z → n + extent y < size :=
        fun y c z hc => absurd hc.symm (by simp)
      unfold mpoolMerge
      rcases Nat.lt_or_ge n size with hlt | hge
      · rw [if_pos hlt]
        have hsize := h.header.2
        cases rest with
        | nil =>
            have hend : ¬ extent pre + n + 4 < m.size := by
              simp only [extent, List.map_nil, List.sum_nil] at hsize ⊢
              omega
            exact ⟨[], [], .full, m, rfl, by simp, hnone, if_neg hend, hstay, id, .full hlt⟩
        | cons c rest =>
            obtain ⟨used, k⟩ := c
            obtain ⟨hw, hle⟩ := h.next_header
            have hq : extent pre + n + 4 = extent pre + 4 + n := Nat.add_right_comm _ _ _
            have hin : extent pre + 4 + n < m.size := by omega
            have hsmall := h.small
            rw [hq, if_pos hin]
            have hused := wordUsed_word used (n := k) (by omega)
            have hk := wordSize_word used (n := k) (by omega)
            cases used with
            | true =>
                simp only [hw, hused, hk, if_true, Option.bind_eq_bind, Option.bind_some,
                  Option.pure_def]
                refine ⟨[], _, _, m, rfl, by simp, hnone, rfl, hstay, id, ?_⟩
                have hnext : extent pre + 4 + n + k + 4 = extent pre + 4 + (n + extent []) + 4 + k :=
                  Nat.add_right_comm _ _ _
                rw [hnext]
                exact .next k rest hlt
            | false =>
                have hp := h.header.1
                have hadd : add32 (word false n) (word false k + 4) = word false (n + 4 + k) := by
                  rw [word_false, word_false, word_false, add32_eq (by omega)]
                  omega
                have hmod := wordSize_word false (n := n + 4 + k) (by omega)
                let m₁ : Mpool :=
                  ⟨m.mem.put32 (extent pre) (word false (n + 4 + k)), m.size, add32 m.free 4⟩
                have hput : m.setHeader (extent pre) (word false (n + 4 + k)) =
                    some { m₁ with free := m.free } := Mpool.setHeader_eq (by omega) _
                have h₁ := h.merge_becomes
                obtain ⟨gone, rest', r, m', rfl, hgone, hmin, hmerge, hbec, hfree, hends⟩ :=
                  ih h₁.tiled (Nat.lt_of_succ_lt_succ hfuel)
                have hext : n + 4 + k + extent gone = n + extent ((false, k) :: gone) := by
                  rw [extent_cons]
                  omega
                have hblocks : usedBlocks 0 (pre ++ (false, n + 4 + k) :: (gone ++ rest')) =
                    usedBlocks 0 (pre ++ (false, n) :: (false, k) :: (gone ++ rest')) := by
                  rw [usedBlocks_free, usedBlocks_free, usedBlocks, if_neg Bool.false_ne_true]
                  congr 2
                  omega
                rw [hext] at hbec hfree
                rw [hblocks] at hbec
                refine ⟨(false, k) :: gone, rest', r, m', rfl, ?_, ?_, ?_, ?_, ?_, ?_⟩
                · intro c hc
                  rcases List.mem_cons.mp hc with rfl | hc
                  · rfl
                  · exact hgone c hc
                · intro y c z heq
                  cases y with
                  | nil => exact hlt
                  | cons d y =>
                      obtain ⟨rfl, htail⟩ := List.cons.inj heq
                      have hy := hmin y c z htail
                      rw [extent_cons]
                      omega
                · simp only [hw, hused, Bool.false_eq_true, if_false, hp, hadd, hput, hmod,
                    Option.bind_eq_bind, Option.bind_some]
                  exact hmerge
                · exact ⟨hbec.size, hbec.tiled, h₁.keeps.trans hbec.keeps⟩
                · intro hm
                  apply hfree
                  have hbound := h.freeBytes_le
                  change add32 m.free 4 = _
                  rw [hm, add32_eq (by omega)]
                  simp only [freeBytes_append, freeBytes_free]
                  omega
                · cases hends with
                  | fits _ hs => exact hext ▸ .fits _ (hext ▸ hs)
                  | next k' _ hs => exact hext ▸ .next k' _ (hext ▸ hs)
                  | full hs => exact .full (hext ▸ hs)
      · rw [if_neg (by omega)]
        exact ⟨[], rest, .fits n, m, rfl, by simp, hnone, rfl, hstay, id, .fits rest hge⟩

/-! ## Scanning -/

/-- The scan of `mpool_alloc` for a chunk: where it is, and how large it has become. -/
def mpoolScan (size : ℕ) : ℕ → Mpool → ℕ → Option (Option (ℕ × ℕ) × Mpool)
  | 0, _, _ => none
  | fuel + 1, m, p =>
      if p < m.size then do
        let h ← m.header p
        if wordUsed h then mpoolScan size fuel m (p + wordSize h + 4)
        else do
          let (r, m) ← mpoolMerge size p m.size m (wordSize h)
          match r with
          | .next q => mpoolScan size fuel m q
          | .full => return (none, m)
          | .fits n => return (some (p, n), m)
      else return (none, m)

/-- The end of `mpool_alloc`: the chunk found is marked, and cut in two when it is larger. -/
def mpoolTake (size p n : ℕ) (m : Mpool) : Option (Option ℕ × Mpool) := do
  let m ← m.setHeader p (markUsed size)
  if n > size then do
    let m ← m.setHeader (p + 4 + size) (leftover n size)
    return (some (p + 4), { m with free := sub32 (sub32 m.free 4) size })
  else return (some (p + 4), { m with free := sub32 m.free size })

theorem mpoolAllocLoop_eq (size fuel : ℕ) (m : Mpool) (p : ℕ) : mpoolAllocLoop size fuel m p =
    (mpoolScan size fuel m p).bind fun x =>
      x.1.elim (some (none, x.2)) fun y => mpoolTake size y.1 y.2 x.2 := by
  induction fuel generalizing m p with
  | zero => rfl
  | succ fuel ih =>
      unfold mpoolAllocLoop mpoolScan
      split_ifs with hp
      · cases hh : m.header p with
        | none => rfl
        | some h =>
            simp only [Option.bind_eq_bind, Option.bind_some]
            split_ifs
            · exact ih m _
            · cases hm : mpoolMerge size p m.size m (wordSize h) with
              | none => rfl
              | some x =>
                  obtain ⟨r, m'⟩ := x
                  cases r with
                  | fits n => rfl
                  | next q => exact ih m' q
                  | full => rfl
      · rfl

theorem usedBlocks_gone {gone : List (Bool × ℕ)} (h : ∀ c ∈ gone, c.1 = false) (p : ℕ)
    (cs : List (Bool × ℕ)) : usedBlocks p (gone ++ cs) = usedBlocks (p + extent gone) cs := by
  induction gone generalizing p with
  | nil => rfl
  | cons c gone ih =>
      obtain ⟨used, n⟩ := c
      obtain rfl : used = false := h _ List.mem_cons_self
      rw [List.cons_append, usedBlocks, if_neg Bool.false_ne_true,
        ih fun c hc => h c (List.mem_cons_of_mem _ hc), extent_cons]
      congr 1
      omega

theorem Aligned.extent_dvd {cs : List (Bool × ℕ)} (h : Aligned cs) : 4 ∣ extent cs := by
  induction cs with
  | nil => exact dvd_zero 4
  | cons c cs ih =>
      obtain ⟨used, n⟩ := c
      have hn : 4 ∣ n := h (used, n) List.mem_cons_self
      have hrest := ih fun c hc => h c (List.mem_cons_of_mem _ hc)
      rw [extent_cons]
      omega

theorem aligned_singleton {used : Bool} : Aligned [(used, n)] ↔ 4 ∣ n := by
  unfold Aligned
  simp

theorem aligned_pair {u v : Bool} : Aligned [(u, n), (v, k)] ↔ 4 ∣ n ∧ 4 ∣ k := by
  unfold Aligned
  simp

theorem Aligned.merge {gone : List (Bool × ℕ)}
    (h : Aligned (pre ++ (false, n) :: (gone ++ rest))) :
    Aligned (pre ++ (false, n + extent gone) :: rest) := by
  refine Aligned.replace ((false, n) :: gone) [(false, n + extent gone)] h fun ha =>
    aligned_singleton.mpr ?_
  have hext := ha.extent_dvd
  rw [extent_cons] at hext
  omega

/-- What a scan has merged, and where it ends: at the first free chunk that is large enough
once the free chunks right behind it are merged in one by one. -/
inductive ScanEnds (size : ℕ) : ℕ → List (Bool × ℕ) → Option (ℕ × ℕ) → Prop
  | done (p : ℕ) : ScanEnds size p [] none
  | used {p n : ℕ} {cs : List (Bool × ℕ)} {r : Option (ℕ × ℕ)} :
      ScanEnds size (p + 4 + n) cs r → ScanEnds size p ((true, n) :: cs) r
  | fits {p n : ℕ} {gone : List (Bool × ℕ)} (cs : List (Bool × ℕ)) :
      (∀ c ∈ gone, c.1 = false) → (∀ y c z, gone = y ++ c :: z → n + extent y < size) →
      size ≤ n + extent gone →
      ScanEnds size p ((false, n) :: (gone ++ cs)) (some (p, n + extent gone))
  | small {p n k : ℕ} {gone cs : List (Bool × ℕ)} {r : Option (ℕ × ℕ)} :
      (∀ c ∈ gone, c.1 = false) → n + extent gone < size →
      ScanEnds size (p + 4 + (n + extent gone) + 4 + k) cs r →
      ScanEnds size p ((false, n) :: (gone ++ (true, k) :: cs)) r
  | full {p n : ℕ} {gone : List (Bool × ℕ)} :
      (∀ c ∈ gone, c.1 = false) → n + extent gone < size →
      ScanEnds size p ((false, n) :: gone) none

/-- A scan keeps the region tiled, stores in no block, and ends as said. -/
theorem mpoolScan_spec (size : ℕ) (h : m.TiledBy (pre ++ rest)) (hfuel : rest.length < fuel) :
    ∃ r m' cs', mpoolScan size fuel m (extent pre) = some (r, m') ∧
      m.Becomes m' cs' (usedBlocks 0 (pre ++ rest)) ∧
      usedBlocks 0 cs' = usedBlocks 0 (pre ++ rest) ∧
      (m.free = freeBytes (pre ++ rest) → m'.free = freeBytes cs') ∧
      (Aligned (pre ++ rest) → Aligned cs') ∧ ScanEnds size (extent pre) rest r ∧
      ∀ q N, r = some (q, N) → ∃ A B, cs' = A ++ (false, N) :: B ∧ q = extent A := by
  induction fuel generalizing m pre rest with
  | zero => omega
  | succ fuel ih =>
      have hend := h.extent_rest
      have hlen := length_le_extent rest
      have hstay : m.Becomes m (pre ++ rest) (usedBlocks 0 (pre ++ rest)) :=
        ⟨rfl, h, KeepsBlocks.refl _ m⟩
      unfold mpoolScan
      cases rest with
      | nil =>
          rw [if_neg (by rw [← hend]; exact lt_irrefl _)]
          exact ⟨none, m, _, rfl, hstay, rfl, id, id, .done _, fun _ _ hc => nomatch hc⟩
      | cons c rest =>
          obtain ⟨used, n⟩ := c
          obtain ⟨hw, hle⟩ := h.header
          have hsmall := h.small
          have hused := wordUsed_word used (n := n) (by omega)
          have hsize := wordSize_word used (n := n) (by omega)
          rw [if_pos (by omega)]
          cases used with
          | true =>
              have hpre : extent pre + n + 4 = extent (pre ++ [(true, n)]) := by
                rw [extent_concat]
                omega
              have hassoc : (pre ++ [(true, n)]) ++ rest = pre ++ (true, n) :: rest := by
                rw [List.append_assoc]
                rfl
              obtain ⟨r, m', cs', hscan, hbec, hblocks, hfree, halign, hends, hat⟩ :=
                ih (hassoc ▸ h) (Nat.lt_of_succ_lt_succ hfuel)
              rw [hassoc] at hbec hblocks hfree halign
              rw [extent_concat] at hends
              refine ⟨r, m', cs', ?_, hbec, hblocks, hfree, halign, .used hends, hat⟩
              simp only [hw, hused, hsize, if_true, hpre, Option.bind_eq_bind, Option.bind_some]
              exact hscan
          | false =>
              have hcount : rest.length < m.size := by
                rw [List.length_cons] at hlen
                omega
              obtain ⟨gone, rest', r, m₁, rfl, hgone, hmin, hmerge, hbec, hfree, hends⟩ :=
                mpoolMerge_spec size h hcount
              have hblocks : usedBlocks 0 (pre ++ (false, n + extent gone) :: rest') =
                  usedBlocks 0 (pre ++ (false, n) :: (gone ++ rest')) := by
                rw [usedBlocks_free, usedBlocks_free, usedBlocks_gone hgone, Nat.add_assoc _ n]
              have halign : Aligned (pre ++ (false, n) :: (gone ++ rest')) →
                  Aligned (pre ++ (false, n + extent gone) :: rest') := Aligned.merge
              simp only [hw, hused, hsize, Bool.false_eq_true, if_false, hmerge,
                Option.bind_eq_bind, Option.bind_some]
              cases hends with
              | fits _ hs =>
                  refine ⟨_, m₁, _, rfl, hbec, hblocks, hfree, halign, .fits rest' hgone hmin hs,
                    ?_⟩
                  rintro q N ⟨⟩
                  exact ⟨pre, rest', rfl, rfl⟩
              | full hs =>
                  rw [List.append_nil] at *
                  exact ⟨none, m₁, _, rfl, hbec, hblocks, hfree, halign, .full hgone hs,
                    fun _ _ hc => nomatch hc⟩
              | next k tail hs =>
                  have hassoc : (pre ++ [(false, n + extent gone), (true, k)]) ++ tail =
                      pre ++ (false, n + extent gone) :: (true, k) :: tail := by
                    rw [List.append_assoc]
                    rfl
                  have hext : extent (pre ++ [(false, n + extent gone), (true, k)]) =
                      extent pre + 4 + (n + extent gone) + 4 + k := by
                    rw [extent_append, extent_cons, extent_cons]
                    change extent pre + (4 + _ + (4 + k + 0)) = _
                    omega
                  obtain ⟨r, m', cs', hscan, hbec', hblocks', hfree', halign', hends', hat⟩ :=
                    ih (hassoc ▸ hbec.tiled) (by
                      rw [List.length_cons, List.length_append, List.length_cons] at hfuel
                      omega)
                  rw [hassoc] at hbec' hblocks' hfree' halign'
                  rw [hblocks] at hbec' hblocks'
                  rw [hext] at hscan hends'
                  refine ⟨r, m', cs', hscan, ⟨hbec'.size.trans hbec.size, hbec'.tiled,
                    hbec.keeps.trans hbec'.keeps⟩, hblocks', fun hm => hfree' (hfree hm),
                    fun ha => halign' (halign ha), .small hgone hs hends', hat⟩

/-! ## Taking the chunk found -/

/-- The chosen chunk is marked, and cut in two when it is larger. -/
theorem mpoolTake_spec (h : m.TiledBy (pre ++ (false, n) :: rest))
    (hn : n = size ∨ size + 4 ≤ n) :
    ∃ m' cs', mpoolTake size (extent pre) n m = some (some (extent pre + 4), m') ∧
      m.Becomes m' cs' (usedBlocks 0 (pre ++ (false, n) :: rest)) ∧
      usedBlocks 0 cs' =
        usedBlocks 0 pre ++ (extent pre + 4, size) :: usedBlocks (extent pre + 4 + n) rest ∧
      (m.free = freeBytes (pre ++ (false, n) :: rest) → m'.free = freeBytes cs') ∧
      (4 ∣ size → Aligned (pre ++ (false, n) :: rest) → Aligned cs') := by
  obtain ⟨-, hend⟩ := h.header
  have hsmall := h.small
  have hbound := h.freeBytes_le
  have hmark : markUsed size = word true size := markUsed_eq (by omega)
  unfold mpoolTake
  rw [hmark, Mpool.setHeader_eq (by omega), usedBlocks_free]
  simp only [Option.bind_eq_bind, Option.bind_some, Option.pure_def]
  have hsum : freeBytes (pre ++ (false, n) :: rest) = freeBytes pre + (n + freeBytes rest) := by
    rw [freeBytes_append, freeBytes_free]
  rw [hsum] at hbound ⊢
  rcases hn with rfl | hn
  · rw [if_neg (lt_irrefl n)]
    refine ⟨_, _, rfl, ⟨rfl, h.mark true _, ?_⟩, ?_, fun hm => ?_, fun hd ha => ?_⟩
    · refine keepsBlocks_outside pre rest fun i hi => Bytes.put32_of_notMem ?_
      omega
    · rw [usedBlocks_append, usedBlocks, if_pos rfl, Nat.zero_add]
    · rw [freeBytes_append, freeBytes_used]
      change sub32 m.free n = _
      rw [hm, sub32_eq (by omega) (by omega)]
      omega
    · exact Aligned.replace [(false, n)] [(true, n)] ha fun _ => aligned_singleton.mpr hd
  · have hleft : leftover n size = word false (n - size - 4) := by
      rw [leftover, if_pos hn, word_false]
    let mem₁ := m.mem.put32 (extent pre) (word true size)
    let mem := mem₁.put32 (extent pre + 4 + size) (word false (n - size - 4))
    have hput : Mpool.setHeader ⟨mem₁, m.size, m.free⟩ (extent pre + 4 + size)
        (word false (n - size - 4)) = some ⟨mem, m.size, m.free⟩ := Mpool.setHeader_eq (by
      change extent pre + 4 + size + 4 ≤ m.size
      omega) _
    have hframe : ∀ i, i < extent pre ∨ extent pre + 4 + n ≤ i → mem i = m.mem i := by
      intro i hi
      have hi₁ : mem i = mem₁ i := Bytes.put32_of_notMem (by omega)
      exact hi₁.trans (Bytes.put32_of_notMem (by omega))
    rw [if_pos (by omega), hleft, hput]
    refine ⟨_, _, rfl, ⟨rfl, h.split hn _ ?_ ?_ hframe, keepsBlocks_outside pre rest hframe⟩,
      ?_, fun hm => ?_, fun hd ha => ?_⟩
    · rw [Bytes.get32_congr fun i hi => Bytes.put32_of_notMem (Or.inl (by omega))]
      exact Bytes.get32_put32 _ _ (word_lt true (by omega))
    · exact Bytes.get32_put32 _ _ (word_lt false (by omega))
    · rw [usedBlocks_append, usedBlocks, if_pos rfl, usedBlocks, if_neg Bool.false_ne_true,
        Nat.zero_add]
      congr 3
      omega
    · rw [freeBytes_append, freeBytes_used, freeBytes_free]
      change sub32 (sub32 m.free 4) size = _
      rw [hm, sub32_eq (b := 4) (by omega) (by omega), sub32_eq (by omega) (by omega)]
      omega
    · refine Aligned.replace [(false, n)] [(true, size), (false, n - size - 4)] ha fun hn4 => ?_
      have hdvd := aligned_singleton.mp hn4
      exact aligned_pair.mpr ⟨hd, by omega⟩

/-! ## Allocating -/

theorem mpoolAlloc_scan (h : m.TiledBy cs) (size : ℕ) : ∃ r m₁ cs₁,
    mpoolScan size (m.size + 1) m 0 = some (r, m₁) ∧
      (mpoolAlloc m size = r.elim (some (none, m₁)) fun y => mpoolTake size y.1 y.2 m₁) ∧
      m.Becomes m₁ cs₁ (usedBlocks 0 cs) ∧ usedBlocks 0 cs₁ = usedBlocks 0 cs ∧
      (m.free = freeBytes cs → m₁.free = freeBytes cs₁) ∧ (Aligned cs → Aligned cs₁) ∧
      ScanEnds size 0 cs r ∧
      ∀ q N, r = some (q, N) → ∃ A B, cs₁ = A ++ (false, N) :: B ∧ q = extent A := by
  have hlen := length_le_extent cs
  rw [h.extent_eq] at hlen
  have hnil : m.TiledBy ([] ++ cs) := h
  obtain ⟨r, m₁, cs₁, hscan, hrest⟩ := mpoolScan_spec size hnil
    (show cs.length < m.size + 1 by omega)
  have hscan' : mpoolScan size (m.size + 1) m 0 = some (r, m₁) := hscan
  refine ⟨r, m₁, cs₁, hscan', ?_, hrest⟩
  unfold mpoolAlloc
  rw [mpoolAllocLoop_eq, hscan', Option.bind_some]

end Carthage
