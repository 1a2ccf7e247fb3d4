import Carthage.MpoolBlocks

/-!
# Resizing blocks of a pool

`mpool_realloc` keeps the bytes of a block that stays where it is. A block that has to move is
copied with its header as the length, which is more than the region whenever it is in use.
-/

namespace Carthage

variable {m m' : Mpool} {size p q n s b N : ℕ} {cs pre rest : List (Bool × ℕ)} {r : Option ℕ}

/-- What a caller relies on when a block in use of `s` bytes at `b` is resized to `n`. -/
structure ReallocResult (m m' : Mpool) (cs cs' : List (Bool × ℕ)) (b s n : ℕ) (r : Option ℕ) :
    Prop where
  tiled : m'.TiledBy cs'
  /-- No other block in use changes. -/
  others : ∀ x ∈ dropBlock (usedBlocks 0 cs) b, x ∈ usedBlocks 0 cs'
  keeps : KeepsBlocks (dropBlock (usedBlocks 0 cs) b) m m'
  /-- The block returned holds what the old one held, and no more was copied. -/
  block : ∀ b', r = some b' → (∃ k, (b', k) ∈ usedBlocks 0 cs' ∧ n ≤ k) ∧
    (∀ i < min s n, m'.mem (b' + i) = m.mem (b + i)) ∧
    (b' ≠ b → ∀ i, s ≤ i → i < n → m'.mem (b' + i) = m.mem (b' + i))
  /-- Without one, the old block is as it was. -/
  refused : r = none → (b, s) ∈ usedBlocks 0 cs' ∧ ∀ i < s, m'.mem (b + i) = m.mem (b + i)

def ReallocKeeps (m : Mpool) (cs : List (Bool × ℕ)) (b s n : ℕ) : Prop :=
  ∃ r m' cs', mpoolRealloc m (some b) n = some (r, m') ∧ ReallocResult m m' cs cs' b s n r

/-- The block shrinks, or it is not the last chunk and grows into the free chunk behind it or
finds no run of free chunks that it could move to. -/
def ReallocStays (m : Mpool) (cs : List (Bool × ℕ)) (b s n : ℕ) : Prop :=
  n < s ∨ b + s < m.size ∧
    (wordUsed (m.mem.get32 (b + s)) = false ∧ n - s < m.mem.get32 (b + s) + 4 ∨
      NoRun n cs)

theorem Resized.result {cs' : List (Bool × ℕ)} (h : Resized m m' cs cs' b s n) :
    ReallocResult m m' cs cs' b s n (some b) := by
  obtain ⟨A, B, k, hle, hA, hB, hbec⟩ := h.becomes
  have hmem : ∀ x ∈ dropBlock (usedBlocks 0 cs) b, x ∈ A ++ B := by
    intro x hx
    obtain ⟨hx, hne⟩ := mem_dropBlock.mp hx
    rw [hA, List.mem_append, List.mem_cons] at hx
    rw [List.mem_append]
    refine hx.imp id fun hor => hor.resolve_left fun heq => hne ?_
    rw [heq]
  refine ⟨hbec.tiled, fun x hx => ?_, fun x hx => hbec.keeps x (hmem x hx), ?_, fun hc => nomatch hc⟩
  · have hx' := hmem x hx
    rw [List.mem_append] at hx'
    rw [hB, List.mem_append]
    exact hx'.imp id (List.mem_cons_of_mem _)
  · rintro b' ⟨⟩
    refine ⟨⟨k, ?_, hle⟩, h.bytes, fun hne => absurd rfl hne⟩
    rw [hB]
    simp

/-! ## Moving -/

theorem Bytes.get32_top (mem : Bytes) (p : ℕ) :
    wordUsed (mem.get32 p) = true ↔ 128 ≤ (mem (p + 3)).toNat := by
  have h0 := (mem p).toNat_lt
  have h1 := (mem (p + 1)).toNat_lt
  have h2 := (mem (p + 2)).toNat_lt
  unfold wordUsed Bytes.get32
  rw [decide_eq_true_iff]
  omega

theorem mpoolTake_top (hm : mpoolTake size q N m = some (r, m')) (hN : size ≤ N) {i : ℕ}
    (hi : i < q ∨ q + 4 + N + 3 ≤ i) : m'.mem i = m.mem i ∧ m'.size = m.size := by
  unfold mpoolTake at hm
  obtain ⟨m₁, hput, hm⟩ := Option.bind_eq_some_iff.mp hm
  obtain ⟨-, ⟨⟩⟩ := Option.ite_none_right_eq_some.mp hput
  split_ifs at hm
  · obtain ⟨m₂, hput₂, hm⟩ := Option.bind_eq_some_iff.mp hm
    obtain ⟨-, ⟨⟩⟩ := Option.ite_none_right_eq_some.mp hput₂
    obtain ⟨-, rfl⟩ := Prod.mk.inj (Option.some.inj hm)
    refine ⟨?_, rfl⟩
    dsimp only
    rw [Bytes.put32_of_notMem (by omega), Bytes.put32_of_notMem (by omega)]
  · obtain ⟨-, rfl⟩ := Prod.mk.inj (Option.some.inj hm)
    refine ⟨?_, rfl⟩
    dsimp only
    rw [Bytes.put32_of_notMem (by omega)]

theorem mpoolAlloc_marked (h : m.TiledBy cs) (hb : (b, s) ∈ usedBlocks 0 cs) {b' : ℕ}
    (halloc : mpoolAlloc m size = some (some b', m')) :
    ∃ w, m'.header (b - 4) = some w ∧ wordUsed w = true ∧ m'.size = m.size := by
  obtain ⟨r, m₁, cs₁, -, heq, hbec, hblocks, -, -, hends, hat⟩ := mpoolAlloc_scan h size
  rw [heq] at halloc
  cases r with
  | none => cases halloc
  | some x =>
      obtain ⟨q, N⟩ := x
      obtain ⟨A, B, rfl, rfl⟩ := hat q N rfl
      obtain ⟨pre, run, post, part, -, hpart, -, hN⟩ := hends.first_run
      have henough := hpart.enough
      rw [← hblocks] at hb
      obtain ⟨pre', rest', -, hpre', rfl, hw, hs, hend, -⟩ := hbec.tiled.block hb
      have hapart : extent pre' + 3 < extent A ∨ extent A + 4 + N + 3 ≤ extent pre' + 3 := by
        rw [usedBlocks_free, List.mem_append] at hb
        rcases hb with hb | hb
        · obtain ⟨-, hle⟩ := usedBlocks_bounds hb
          omega
        · obtain ⟨hle, -⟩ := usedBlocks_bounds hb
          omega
      obtain ⟨htop, hsize⟩ := mpoolTake_top halloc (hN ▸ henough) hapart
      have hmark : wordUsed (m₁.mem.get32 (extent pre')) = true := by
        rw [Mpool.header_eq (by omega)] at hw
        rw [Option.some.inj hw]
        exact wordUsed_word true hs
      refine ⟨m'.mem.get32 (extent pre'), ?_, ?_, hsize.trans hbec.size⟩
      · rw [hpre']
        exact Mpool.header_eq (by rw [hsize]; omega)
      · rw [Bytes.get32_top, htop, ← Bytes.get32_top]
        exact hmark

theorem mpoolRealloc_moves (h : m.TiledBy cs) (hb : (b, s) ∈ usedBlocks 0 cs) (hpos : n ≠ 0)
    (hge : s ≤ n) {o : ℕ} (ho : m.header (b + s) = some o)
    (hstay : wordUsed o = true ∨ n - s ≥ o + 4)
    (hfit : ¬ ∀ pre run post, FreeRun cs pre run post → payload run < n) :
    mpoolRealloc m (some b) n = none := by
  obtain ⟨pre, rest, -, hpre, hat, hw, hs, -, -⟩ := h.block hb
  have hsmall := h.small
  simp only [mpoolRealloc, if_neg hpos, hpre, hw, wordSize_word true hs, if_neg (not_lt.mpr hge),
    ho, if_pos hstay, Option.bind_eq_bind, Option.bind_some]
  cases halloc : mpoolAlloc m n with
  | none => rfl
  | some x =>
      obtain ⟨r, m'⟩ := x
      cases r with
      | none =>
          obtain ⟨r, m₁, -, -, heq, -, -, -, -, hends, -⟩ := mpoolAlloc_scan h n
          cases r with
          | none => exact absurd (fun pre run post hrun => hends.small_runs hrun) hfit
          | some y =>
              rw [halloc] at heq
              unfold Option.elim mpoolTake at heq
              obtain ⟨m₂, -, heq⟩ := Option.bind_eq_some_iff.mp heq.symm
              split_ifs at heq
              · obtain ⟨m₃, -, heq⟩ := Option.bind_eq_some_iff.mp heq
                cases heq
              · cases heq
      | some b' =>
          obtain ⟨w, hw', hmark, hsize⟩ := mpoolAlloc_marked h hb halloc
          rw [hpre] at hw'
          have hbig : 2 ^ 31 ≤ w := of_decide_eq_true hmark
          have hcopy : m'.mem.memmove 0 m'.size b' b w = none := by
            unfold Bytes.memmove
            rw [if_neg (by omega), if_neg (by omega)]
          simp only [Option.bind_some, hw', hcopy, Option.bind_none]

theorem stays_or {u : Bool} {d o : ℕ} (h : ¬ (u = false ∧ d < o)) : u = true ∨ d ≥ o := by
  rw [not_and, not_lt] at h
  cases u with
  | true => exact Or.inl rfl
  | false => exact Or.inr (h rfl)

theorem Mpool.TiledBy.next (h : m.TiledBy cs) (hb : (b, s) ∈ usedBlocks 0 cs)
    (hin : b + s < m.size) : m.header (b + s) = some (m.mem.get32 (b + s)) := by
  obtain ⟨pre, rest, -, -, -, -, -, hend, -⟩ := h.block hb
  cases rest with
  | nil =>
      have hend' : b + s = m.size := hend
      omega
  | cons c rest =>
      obtain ⟨used, k⟩ := c
      rw [extent_cons] at hend
      exact Mpool.header_eq (by omega)

theorem mpoolRealloc_stays (h : m.TiledBy cs) (hb : (b, s) ∈ usedBlocks 0 cs) (hpos : n ≠ 0)
    {x : Option ℕ × Mpool} (hre : mpoolRealloc m (some b) n = some x) :
    ReallocStays m cs b s n := by
  obtain ⟨pre, rest, -, hpre, -, hw, hs, -, -⟩ := h.block hb
  by_contra hmoves
  unfold ReallocStays at hmoves
  rw [not_or, not_lt, not_and, not_or] at hmoves
  obtain ⟨hge, hmoves⟩ := hmoves
  have hnone : mpoolRealloc m (some b) n = none := by
    by_cases hin : b + s < m.size
    · obtain ⟨hstay, hfit⟩ := hmoves hin
      exact mpoolRealloc_moves h hb hpos hge (h.next hb hin) (stays_or hstay) hfit
    · have hout : m.header (b + s) = none := if_neg (by omega)
      simp only [mpoolRealloc, if_neg hpos, hpre, hw, wordSize_word true hs,
        if_neg (not_lt.mpr hge), hout, Option.bind_eq_bind, Option.bind_some, Option.bind_none]
  rw [hnone] at hre
  cases hre

/-- Resizing works exactly for the blocks that stay where they are. -/
theorem mpoolRealloc_keeps (h : m.TiledBy cs) (hb : (b, s) ∈ usedBlocks 0 cs) (hpos : 1 ≤ n) :
    ReallocKeeps m cs b s n ↔ ReallocStays m cs b s n := by
  have hzero : n ≠ 0 := by omega
  have hnext := h.next hb
  constructor
  · rintro ⟨r, m', cs', hre, -⟩
    exact mpoolRealloc_stays h hb hzero hre
  · rintro (hlt | ⟨hin, hgrow | hfull⟩)
    · obtain ⟨m', cs', hre, hresized, -⟩ := mpoolRealloc_shrink h hb hzero hlt
      exact ⟨some b, m', cs', hre, hresized.result⟩
    · rcases lt_or_ge n s with hlt | hge
      · obtain ⟨m', cs', hre, hresized, -⟩ := mpoolRealloc_shrink h hb hzero hlt
        exact ⟨some b, m', cs', hre, hresized.result⟩
      · obtain ⟨m', cs', hre, hresized, -⟩ :=
          mpoolRealloc_grow h hb hzero hge (hnext hin) hgrow.1 hgrow.2
        exact ⟨some b, m', cs', hre, hresized.result⟩
    · rcases lt_or_ge n s with hlt | hge
      · obtain ⟨m', cs', hre, hresized, -⟩ := mpoolRealloc_shrink h hb hzero hlt
        exact ⟨some b, m', cs', hre, hresized.result⟩
      · by_cases hgrow : wordUsed (m.mem.get32 (b + s)) = false ∧ n - s < m.mem.get32 (b + s) + 4
        · obtain ⟨m', cs', hre, hresized, -⟩ :=
            mpoolRealloc_grow h hb hzero hge (hnext hin) hgrow.1 hgrow.2
          exact ⟨some b, m', cs', hre, hresized.result⟩
        · obtain ⟨m', cs', hre, hbec, hblocks, -⟩ := mpoolRealloc_refused h hb hzero hge
            (hnext hin) (stays_or hgrow) hfull
          refine ⟨none, m', cs', hre, hbec.tiled, fun x hx => ?_, fun x hx => ?_,
            fun b' hb' => (nomatch hb'), fun _ => ⟨hblocks ▸ hb, fun i hi => ?_⟩⟩
          · rw [hblocks]
            exact (mem_dropBlock.mp hx).1
          · exact hbec.keeps x (mem_dropBlock.mp hx).1
          · exact hbec.keeps (b, s) hb (b + i) (by omega) (Nat.add_lt_add_left hi b)

/-- Two blocks of eight bytes and a free chunk. -/
def mpoolPair : Mpool :=
  ⟨Bytes.put32 (Bytes.put32 (Bytes.put32 (fun _ => 7) 0 (word true 8)) 12 (word true 8)) 24 36,
    64, 36⟩

theorem mpoolPair_tiled : mpoolPair.TiledBy [(true, 8), (true, 8), (false, 36)] :=
  ⟨⟨by decide, rfl, by decide, rfl, by decide, rfl, rfl⟩, by decide⟩

theorem mpoolRealloc_keeps_last : ReallocKeeps mpoolPair [(true, 8), (true, 8), (false, 36)] 16 8 20 :=
  (mpoolRealloc_keeps mpoolPair_tiled (by decide) (by decide)).mpr
    (Or.inr ⟨by decide, Or.inl (by decide)⟩)

/-- The first block has to move, and is copied with a length of more than 2 GiB. -/
theorem mpoolRealloc_overcopies : mpoolPair.TiledBy [(true, 8), (true, 8), (false, 36)] ∧
    (4, 8) ∈ usedBlocks 0 [(true, 8), (true, 8), (false, 36)] ∧
    mpoolRealloc mpoolPair (some 4) 16 = none ∧
    ¬ ReallocKeeps mpoolPair [(true, 8), (true, 8), (false, 36)] 4 8 16 := by
  have hnone : mpoolRealloc mpoolPair (some 4) 16 = none := rfl
  refine ⟨mpoolPair_tiled, by decide, hnone, ?_⟩
  rintro ⟨r, m', cs', hre, -⟩
  rw [hnone] at hre
  cases hre

end Carthage
