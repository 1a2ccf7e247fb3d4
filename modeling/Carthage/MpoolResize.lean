import Carthage.MpoolFirstFit

/-!
# Freeing and resizing blocks of a pool

What `mpool_free` and the branches of `mpool_realloc` do to the chunks, to the other blocks and
to the count of free bytes.
-/

namespace Carthage

variable {m m' : Mpool} {size p n k b o : ℕ} {pre rest cs : List (Bool × ℕ)}

theorem Mpool.TiledBy.block (h : m.TiledBy cs) (hb : (b, n) ∈ usedBlocks 0 cs) :
    ∃ pre rest, cs = pre ++ (true, n) :: rest ∧ b - 4 = extent pre ∧ b = extent pre + 4 ∧
      m.header (extent pre) = some (word true n) ∧ n < 2 ^ 31 ∧ b + n + extent rest = m.size ∧
      usedBlocks 0 cs = usedBlocks 0 pre ++ (b, n) :: usedBlocks (b + n) rest := by
  obtain ⟨pre, rest, rfl, rfl⟩ := usedBlocks_mem hb
  obtain ⟨hw, hend⟩ := h.header
  obtain ⟨-, hn, -, -⟩ := h.tiles.header
  rw [Nat.zero_add]
  refine ⟨pre, rest, rfl, rfl, rfl, hw, hn, hend, ?_⟩
  rw [usedBlocks_append, usedBlocks, if_pos rfl, Nat.zero_add]

theorem usedBlocks_middle (pre ys : List (Bool × ℕ)) :
    usedBlocks 0 (pre ++ ys) = usedBlocks 0 pre ++ usedBlocks (extent pre) ys := by
  rw [usedBlocks_append, Nat.zero_add]

/-- Freeing a block that is not the last chunk takes it from the blocks in use. -/
theorem mpoolFree_spec (h : m.TiledBy cs) (hb : (b, n) ∈ usedBlocks 0 cs)
    (hlast : b + n < m.size) :
    ∃ m' cs' A B, mpoolFree m (some b) = some m' ∧ usedBlocks 0 cs = A ++ (b, n) :: B ∧
      usedBlocks 0 cs' = A ++ B ∧ m.Becomes m' cs' (A ++ B) ∧
      (m.free = freeBytes cs → m'.free = freeBytes cs') ∧ (Aligned cs → Aligned cs') := by
  obtain ⟨pre, rest, rfl, hpre, rfl, hw, hn, hend, hblocks⟩ := h.block hb
  have hsize := wordSize_word true hn
  have hsmall := h.small
  have hbound := h.freeBytes_le
  cases rest with
  | nil =>
      simp only [extent, List.map_nil, List.sum_nil] at hend hlast
      omega
  | cons c rest =>
      obtain ⟨used, k⟩ := c
      let m₁ : Mpool := ⟨m.mem.put32 (extent pre) n, m.size, add32 m.free n⟩
      have h₁ : m₁.TiledBy (pre ++ (false, n) :: (used, k) :: rest) := by
        have hmark := h.mark false (add32 m.free n)
        rwa [word_false] at hmark
      have hput : m.setHeader (extent pre) n = some { m₁ with free := m.free } :=
        Mpool.setHeader_eq (by omega) n
      have hframe₁ : ∀ i, i < extent pre ∨ extent pre + 4 ≤ i → m₁.mem i = m.mem i :=
        fun i hi => Bytes.put32_of_notMem hi
      have hbound₁ := h₁.freeBytes_le
      have hfree₁ : m.free = freeBytes (pre ++ (true, n) :: (used, k) :: rest) →
          m₁.free = freeBytes (pre ++ (false, n) :: (used, k) :: rest) := by
        intro hm
        rw [freeBytes_append, freeBytes_free] at hbound₁ ⊢
        rw [freeBytes_append, freeBytes_used] at hm
        change add32 m.free n = _
        rw [hm, add32_eq (by omega)]
        omega
      have halign₁ : Aligned (pre ++ (true, n) :: (used, k) :: rest) →
          Aligned (pre ++ (false, n) :: (used, k) :: rest) := fun ha =>
        Aligned.replace [(true, n)] [(false, n)] ha fun hn4 =>
          aligned_singleton.mpr (aligned_singleton.mp hn4)
      obtain ⟨ho, hle⟩ := h₁.next_header
      change extent pre + 4 + n + 4 + k + extent rest = m.size at hle
      have hk : k < 2 ^ 31 := by omega
      have hused := wordUsed_word used hk
      cases used with
      | true =>
          refine ⟨m₁, _, _, _, ?_, hblocks, usedBlocks_free pre n _,
            ⟨rfl, h₁, keepsBlocks_outside pre _ fun i hi => hframe₁ i (by omega)⟩, hfree₁, halign₁⟩
          simp only [mpoolFree, hpre, hw, hsize, hput, Option.bind_eq_bind, Option.bind_some,
            Option.pure_def]
          change (m₁.header (extent pre + 4 + n)).bind _ = some m₁
          rw [ho, Option.bind_some, hused, if_pos rfl]
      | false =>
          have hadd : add32 n (word false k + 4) = word false (n + 4 + k) := by
            rw [word_false, word_false, add32_eq (by omega)]
            omega
          have hput₁ : m₁.setHeader (extent pre) (word false (n + 4 + k)) =
              some { m₁ with mem := m₁.mem.put32 (extent pre) (word false (n + 4 + k)) } :=
            Mpool.setHeader_eq (by change extent pre + 4 ≤ m.size; omega) _
          let m₂ : Mpool :=
            ⟨m₁.mem.put32 (extent pre) (word false (n + 4 + k)), m.size, add32 m₁.free 4⟩
          have hbec := h₁.merge_becomes
          refine ⟨m₂, _, _, _, ?_, hblocks, ?_, ⟨rfl, hbec.tiled, ?_⟩, fun hm => ?_, fun ha => ?_⟩
          · simp only [mpoolFree, hpre, hw, hsize, hput, Option.bind_eq_bind, Option.bind_some,
              Option.pure_def]
            change (m₁.header (extent pre + 4 + n)).bind _ = _
            rw [ho, Option.bind_some, hused, if_neg Bool.false_ne_true, hadd]
            change (m₁.setHeader (extent pre) _).bind _ = _
            rw [hput₁]
            rfl
          · rw [usedBlocks_free, usedBlocks, if_neg Bool.false_ne_true]
            congr 2
            omega
          · refine keepsBlocks_outside pre _ fun i hi => ?_
            have hi₁ : m₂.mem i = m₁.mem i := Bytes.put32_of_notMem (by omega)
            exact hi₁.trans (hframe₁ i (by omega))
          · have hm₁ := hfree₁ hm
            have hlt := hbec.tiled.freeBytes_le
            rw [freeBytes_append, freeBytes_free] at hlt ⊢
            rw [freeBytes_append, freeBytes_free, freeBytes_free] at hm₁
            change add32 m₁.free 4 = _
            rw [hm₁, add32_eq (by omega)]
            omega
          · refine Aligned.replace [(false, n), (false, k)] [(false, n + 4 + k)] (halign₁ ha)
              fun hnk => aligned_singleton.mpr ?_
            obtain ⟨hn4, hk4⟩ := aligned_pair.mp hnk
            omega

/-! ## Resizing in place -/

theorem Mpool.TiledBy.cut (h : m.TiledBy (pre ++ (true, n) :: rest)) (size : ℕ)
    (hn : size + 4 ≤ n) :
    ∃ m₁ mem, m.setHeader (extent pre + 4 + size) (leftover n size) = some m₁ ∧
      m₁.setHeader (extent pre) (markUsed size) = some ⟨mem, m.size, m.free⟩ ∧
      (∀ free, TiledBy ⟨mem, m.size, free⟩
        (pre ++ (true, size) :: (false, n - size - 4) :: rest)) ∧
      ∀ i, i < extent pre ∨ extent pre + 4 ≤ i ∧ i < extent pre + 4 + size ∨
        extent pre + 4 + n ≤ i → mem i = m.mem i := by
  obtain ⟨-, hend⟩ := h.header
  have hsmall := h.small
  have hleft : leftover n size = word false (n - size - 4) := by
    rw [leftover, if_pos hn, word_false]
  let mem₁ := m.mem.put32 (extent pre + 4 + size) (word false (n - size - 4))
  let mem := mem₁.put32 (extent pre) (word true size)
  have hframe : ∀ i, i < extent pre ∨ extent pre + 4 ≤ i ∧ i < extent pre + 4 + size ∨
      extent pre + 4 + n ≤ i → mem i = m.mem i := by
    intro i hi
    have hi₁ : mem i = mem₁ i := Bytes.put32_of_notMem (by omega)
    exact hi₁.trans (Bytes.put32_of_notMem (by omega))
  rw [hleft, markUsed_eq (by omega)]
  refine ⟨⟨mem₁, m.size, m.free⟩, mem, Mpool.setHeader_eq (by omega) _,
    Mpool.setHeader_eq (by change extent pre + 4 ≤ m.size; omega) _, fun free => ?_, hframe⟩
  refine h.split hn free (Bytes.get32_put32 _ _ (word_lt true (by omega))) ?_
    fun i hi => hframe i (by omega)
  have hkeep : mem.get32 (extent pre + 4 + size) = mem₁.get32 (extent pre + 4 + size) :=
    Bytes.get32_congr fun i _ => Bytes.put32_of_notMem (Or.inr (by omega))
  rw [hkeep]
  exact Bytes.get32_put32 _ _ (word_lt false (by omega))

theorem usedBlocks_cut (pre rest : List (Bool × ℕ)) (hn : size + 4 ≤ n) :
    usedBlocks 0 (pre ++ (true, size) :: (false, n - size - 4) :: rest) =
      usedBlocks 0 pre ++ (extent pre + 4, size) :: usedBlocks (extent pre + 4 + n) rest := by
  rw [usedBlocks_middle, usedBlocks, if_pos rfl, usedBlocks, if_neg Bool.false_ne_true]
  congr 3
  omega

/-- What resizing a block of `n` bytes at `b` in place leaves: the block holds `size` bytes,
the bytes it had so far are the same, and so are all other blocks. -/
structure Resized (m m' : Mpool) (cs cs' : List (Bool × ℕ)) (b n size : ℕ) : Prop where
  becomes : ∃ A B k, size ≤ k ∧ usedBlocks 0 cs = A ++ (b, n) :: B ∧
    usedBlocks 0 cs' = A ++ (b, k) :: B ∧ m.Becomes m' cs' (A ++ B)
  bytes : ∀ i < min n size, m'.mem (b + i) = m.mem (b + i)

theorem mpoolRealloc_shrink (h : m.TiledBy cs) (hb : (b, n) ∈ usedBlocks 0 cs)
    (hpos : size ≠ 0) (hlt : size < n) :
    ∃ m' cs', mpoolRealloc m (some b) size = some (some b, m') ∧ Resized m m' cs cs' b n size ∧
      (m.free = freeBytes cs → m'.free = freeBytes cs') ∧
      (4 ∣ size → Aligned cs → Aligned cs') := by
  obtain ⟨pre, rest, rfl, hpre, rfl, hw, hn, hend, hblocks⟩ := h.block hb
  have hsize := wordSize_word true hn
  have hsmall := h.small
  by_cases hfew : n - size ≤ 8
  · refine ⟨m, _, ?_, ⟨⟨_, _, n, hlt.le, hblocks, hblocks, rfl, h, KeepsBlocks.refl _ m⟩,
      fun _ _ => rfl⟩, id, fun _ => id⟩
    simp only [mpoolRealloc, if_neg hpos, hpre, hw, hsize, if_pos hlt, if_pos hfew,
      Option.bind_eq_bind, Option.bind_some, Option.pure_def]
  · obtain ⟨m₁, mem, hput₁, hput, ht, hframe⟩ := h.cut size (by omega)
    let m' : Mpool := ⟨mem, m.size, add32 m.free (n - size - 4)⟩
    refine ⟨m', _, ?_, ⟨⟨_, _, size, le_rfl, hblocks, usedBlocks_cut pre rest (by omega), rfl,
      ht _, keepsBlocks_outside pre rest fun i hi => hframe i (by omega)⟩,
      fun i hi => hframe _ (by omega)⟩, fun hm => ?_, fun hd ha => ?_⟩
    · simp only [mpoolRealloc, if_neg hpos, hpre, hw, hsize, if_pos hlt, if_neg hfew, hput₁, hput,
        Option.bind_eq_bind, Option.bind_some, Option.pure_def]
      rfl
    · have hbound := (ht 0).freeBytes_le
      rw [freeBytes_append, freeBytes_used, freeBytes_free] at hbound ⊢
      rw [freeBytes_append, freeBytes_used] at hm
      change add32 m.free (n - size - 4) = _
      rw [hm, add32_eq (by omega)]
      omega
    · refine Aligned.replace [(true, n)] [(true, size), (false, n - size - 4)] ha fun hn4 => ?_
      have hdvd := aligned_singleton.mp hn4
      exact aligned_pair.mpr ⟨hd, by omega⟩

/-- Growing a block into the free chunk of `k` bytes behind it. The count of free bytes stays
right unless less than two headers are left over and not exactly one. -/
theorem mpoolRealloc_grow (h : m.TiledBy cs) (hb : (b, n) ∈ usedBlocks 0 cs)
    (hpos : size ≠ 0) (hge : n ≤ size) (ho : m.header (b + n) = some o)
    (hfree : wordUsed o = false) (hroom : size - n < o + 4) :
    ∃ m' cs', mpoolRealloc m (some b) size = some (some b, m') ∧ Resized m m' cs cs' b n size ∧
      (size + 4 ≤ n + o → m.free = freeBytes cs → m'.free = freeBytes cs') ∧
      (4 ∣ size → Aligned cs → Aligned cs' ∧ 4 ∣ n ∧ 4 ∣ o) := by
  obtain ⟨pre, rest, rfl, hpre, rfl, hw, hn, hend, hblocks⟩ := h.block hb
  have hsize := wordSize_word true hn
  have hsmall := h.small
  cases rest with
  | nil =>
      have hend' : extent pre + 4 + n = m.size := hend
      rw [Mpool.header, if_neg (by omega)] at ho
      cases ho
  | cons c rest =>
      obtain ⟨used, k⟩ := c
      obtain ⟨hnext, hle⟩ := h.next_header
      rw [hnext] at ho
      obtain rfl := Option.some.inj ho
      rw [wordUsed_word used (by omega)] at hfree
      subst hfree
      rw [word_false] at hroom
      have hadd : add32 (word true n) (word false k + 4) = word true (n + 4 + k) := by
        unfold word
        simp only [if_true, Bool.false_eq_true, if_false, Nat.zero_add]
        rw [add32_eq (by omega)]
        omega
      have hsum : n + 4 + k < 2 ^ 31 := by omega
      let m₁ : Mpool := ⟨m.mem.put32 (extent pre) (word true (n + 4 + k)), m.size, m.free⟩
      have h₁ : m₁.TiledBy (pre ++ (true, n + 4 + k) :: rest) := h.merge m.free
      have hput₁ : m.setHeader (extent pre) (word true (n + 4 + k)) = some m₁ :=
        Mpool.setHeader_eq (by omega) _
      have hframe₁ : ∀ i, i < extent pre ∨ extent pre + 4 ≤ i → m₁.mem i = m.mem i :=
        fun i hi => Bytes.put32_of_notMem hi
      have hif : ¬ (wordUsed (word false k) = true ∨ size - n ≥ word false k + 4) := by
        rw [wordUsed_word false (by omega), word_false]
        simp only [Bool.false_eq_true, false_or]
        omega
      have hblocks₁ : usedBlocks 0 (pre ++ (true, n + 4 + k) :: rest) = usedBlocks 0 pre ++
          (extent pre + 4, n + 4 + k) :: usedBlocks (extent pre + 4 + n + 4 + k) rest := by
        rw [usedBlocks_middle, usedBlocks, if_pos rfl]
        congr 3
        omega
      have hblocks' : usedBlocks (extent pre + 4 + n) ((false, k) :: rest) =
          usedBlocks (extent pre + 4 + n + 4 + k) rest := if_neg Bool.false_ne_true
      have hbound := h.freeBytes_le
      have halign : Aligned (pre ++ (true, n) :: (false, k) :: rest) →
          Aligned (pre ++ (true, n + 4 + k) :: rest) ∧ 4 ∣ n ∧ 4 ∣ word false k := by
        intro ha
        rw [word_false]
        have hn4 : 4 ∣ n := ha (true, n) (by simp)
        have hk4 : 4 ∣ k := ha (false, k) (by simp)
        refine ⟨Aligned.replace [(true, n), (false, k)] [(true, n + 4 + k)] ha fun _ => ?_, hn4, hk4⟩
        exact aligned_singleton.mpr (by omega)
      rw [hblocks'] at hblocks
      rw [freeBytes_append, freeBytes_used, freeBytes_free] at hbound
      simp only [mpoolRealloc, if_neg hpos, hpre, hw, hsize, if_neg (not_lt.mpr hge), hnext,
        if_neg hif, hadd, hput₁, wordSize_word true hsum, Option.bind_eq_bind, Option.bind_some,
        Option.pure_def]
      by_cases hfew : n + 4 + k - size ≤ 8
      · let m' : Mpool := ⟨m₁.mem, m.size, sub32 (sub32 m.free (size - n)) 4⟩
        have ht : m'.TiledBy (pre ++ (true, n + 4 + k) :: rest) := h.merge _
        have hkeeps : KeepsBlocks (usedBlocks 0 pre ++ usedBlocks (extent pre + 4 + n + 4 + k) rest)
            m m' := keepsBlocks_outside pre rest fun i hi => hframe₁ i (by omega)
        have hbytes : ∀ i < min n size, m₁.mem (extent pre + 4 + i) = m.mem (extent pre + 4 + i) :=
          fun i _ => hframe₁ (extent pre + 4 + i) (Or.inr (Nat.le_add_right _ _))
        refine ⟨m', _, ?_, ⟨⟨_, _, n + 4 + k, by omega, hblocks, hblocks₁, rfl, ht, hkeeps⟩,
          hbytes⟩, fun hleft hm => ?_, fun _ => halign⟩
        · rw [if_pos hfew]
        · rw [word_false] at hleft
          rw [freeBytes_append, freeBytes_used, freeBytes_free] at hm
          rw [freeBytes_append, freeBytes_used]
          change sub32 (sub32 m.free (size - n)) 4 = _
          rw [hm, sub32_eq (b := size - n) (by omega) (by omega), sub32_eq (by omega) (by omega)]
          omega
      · obtain ⟨m₂, mem, hput₂, hput, ht, hframe⟩ := h₁.cut size (by omega)
        have hframe' : ∀ i, i < extent pre ∨ extent pre + 4 ≤ i ∧ i < extent pre + 4 + size ∨
            extent pre + 4 + (n + 4 + k) ≤ i → mem i = m.mem i := fun i hi =>
          (hframe i hi).trans (hframe₁ i (by omega))
        let m' : Mpool := ⟨mem, m.size, sub32 m.free (size - n)⟩
        refine ⟨m', _, ?_, ⟨⟨_, _, size, le_rfl, hblocks, ?_, rfl, ht _,
          keepsBlocks_outside pre rest fun i hi => hframe' i (by omega)⟩,
          fun i hi => hframe' _ (by omega)⟩, fun _ hm => ?_, fun hd ha => ?_⟩
        · rw [if_neg hfew, hput₂, Option.bind_some, hput, Option.bind_some]
        · rw [usedBlocks_cut pre rest (by omega)]
          congr 3
          omega
        · rw [freeBytes_append, freeBytes_used, freeBytes_free] at hm
          rw [freeBytes_append, freeBytes_used, freeBytes_free]
          change sub32 m.free (size - n) = _
          rw [hm, sub32_eq (by omega) (by omega)]
          omega
        · obtain ⟨ha₁, hn4, hk4⟩ := halign ha
          rw [word_false] at hk4 ⊢
          refine ⟨Aligned.replace [(true, n + 4 + k)] [(true, size), (false, n + 4 + k - size - 4)]
            ha₁ fun _ => aligned_pair.mpr ⟨hd, by omega⟩, hn4, hk4⟩

theorem mpoolRealloc_refused (h : m.TiledBy cs) (hb : (b, n) ∈ usedBlocks 0 cs)
    (hpos : size ≠ 0) (hge : n ≤ size) (ho : m.header (b + n) = some o)
    (hnone : wordUsed o = true ∨ size - n ≥ o + 4) (hfit : NoRun size cs) :
    ∃ m' cs', mpoolRealloc m (some b) size = some (none, m') ∧
      m.Becomes m' cs' (usedBlocks 0 cs) ∧ usedBlocks 0 cs' = usedBlocks 0 cs ∧
      (m.free = freeBytes cs → m'.free = freeBytes cs') ∧
      (4 ∣ size → Aligned cs → Aligned cs') := by
  obtain ⟨pre, rest, hcs, hpre, rfl, hw, hn, hend, hblocks⟩ := h.block hb
  have hsize := wordSize_word true hn
  obtain ⟨r, m', cs', halloc, hbec, hfree, halign, hcases⟩ := mpoolAlloc_spec h hfit.fitsFirst
  rcases hcases with ⟨rfl, -, hb'⟩ | ⟨_, _, _, _, hsome, _⟩
  · refine ⟨m', cs', ?_, hbec, hb', hfree, halign⟩
    simp only [mpoolRealloc, if_neg hpos, hpre, hw, hsize, if_neg (not_lt.mpr hge), ho,
      if_pos hnone, halloc, Option.bind_eq_bind, Option.bind_some, Option.pure_def]
  · exact absurd hfit hsome

end Carthage
