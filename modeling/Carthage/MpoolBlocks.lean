import Carthage.MpoolResize

/-!
# The blocks of a pool

The blocks that a pool's user holds lie in chunks in use, each in one of its own, so they
never overlap. Operations keep this as long as no header falls outside the region.
-/

namespace Carthage

variable {m : Mpool} {b n k fuel p : ℕ} {cs : List (Bool × ℕ)}

/-! ## Blocks held -/

/-- Every block held lies in a block of the pool, and none is held twice. -/
structure Holds (used live : List (ℕ × ℕ)) : Prop where
  nodup : (live.map Prod.fst).Nodup
  covered : ∀ b n, (b, n) ∈ live → ∃ k, (b, k) ∈ used ∧ n ≤ k

theorem usedBlocks_nodup (p : ℕ) (cs : List (Bool × ℕ)) :
    ((usedBlocks p cs).map Prod.fst).Nodup := by
  refine List.pairwise_map.mpr ((usedBlocks_pairwise p cs).imp fun hxy => ?_)
  omega

theorem mem_dropBlock {live : List (ℕ × ℕ)} {x : ℕ × ℕ} :
    x ∈ dropBlock live b ↔ x ∈ live ∧ x.1 ≠ b := by
  simp [dropBlock]

namespace Holds

variable {used live xs ys : List (ℕ × ℕ)}

theorem add (h : Holds (xs ++ ys) live) (hnew : b ∉ (xs ++ ys).map Prod.fst) (hle : n ≤ k) :
    Holds (xs ++ (b, k) :: ys) ((b, n) :: live) := by
  constructor
  · rw [List.map_cons, List.nodup_cons]
    refine ⟨fun hmem => ?_, h.nodup⟩
    obtain ⟨⟨b', n'⟩, hx, rfl⟩ := List.mem_map.mp hmem
    obtain ⟨k', hk', -⟩ := h.covered b' n' hx
    exact hnew (List.mem_map.mpr ⟨(b', k'), hk', rfl⟩)
  · intro b' n' hmem
    rcases List.mem_cons.mp hmem with heq | hmem
    · obtain ⟨rfl, rfl⟩ := Prod.mk.inj heq
      exact ⟨k, by simp, hle⟩
    · obtain ⟨k', hk', hle'⟩ := h.covered b' n' hmem
      refine ⟨k', ?_, hle'⟩
      rw [List.mem_append] at hk' ⊢
      exact hk'.imp id (List.mem_cons_of_mem _)

theorem drop (h : Holds (xs ++ (b, k) :: ys) live) : Holds (xs ++ ys) (dropBlock live b) := by
  constructor
  · exact h.nodup.sublist (List.filter_sublist.map Prod.fst)
  · intro b' n' hmem
    obtain ⟨hmem, hne⟩ := mem_dropBlock.mp hmem
    obtain ⟨k', hk', hle⟩ := h.covered b' n' hmem
    refine ⟨k', ?_, hle⟩
    rw [List.mem_append, List.mem_cons] at hk'
    rw [List.mem_append]
    refine hk'.imp id fun hor => hor.resolve_left fun heq => hne ?_
    exact (Prod.mk.inj heq).1

theorem disjoint (h : Holds (usedBlocks p cs) live) :
    live.Pairwise fun x y => x.1 + x.2 ≤ y.1 ∨ y.1 + y.2 ≤ x.1 := by
  have hne : live.Pairwise fun x y => x.1 ≠ y.1 := List.pairwise_map.mp h.nodup
  refine hne.imp_of_mem fun {x y} hx hy hxy => ?_
  obtain ⟨k, hk, hle⟩ := h.covered x.1 x.2 hx
  obtain ⟨k', hk', hle'⟩ := h.covered y.1 y.2 hy
  rcases usedBlocks_disjoint hk hk' with heq | hle₁ | hle₁
  · exact absurd (Prod.mk.inj heq).1 hxy
  · exact Or.inl (by omega)
  · exact Or.inr (by omega)

end Holds

/-! ## The chunks of a pool -/

def mpoolChunksFrom (m : Mpool) : ℕ → ℕ → List (Bool × ℕ)
  | 0, _ => []
  | fuel + 1, p =>
      if p < m.size then
        (wordUsed (m.mem.get32 p), wordSize (m.mem.get32 p)) ::
          mpoolChunksFrom m fuel (p + 4 + wordSize (m.mem.get32 p))
      else []

/-- The chunks met from the start of the region, stepping over each one. -/
def mpoolChunks (m : Mpool) : List (Bool × ℕ) := mpoolChunksFrom m m.size 0

theorem mpoolChunksFrom_eq (h : Tiles m.mem p cs m.size) (hfuel : cs.length ≤ fuel) :
    mpoolChunksFrom m fuel p = cs := by
  induction cs generalizing fuel p with
  | nil =>
      have hp : p = m.size := h
      cases fuel with
      | zero => rfl
      | succ fuel => exact if_neg (by omega)
  | cons c cs ih =>
      obtain ⟨used, n⟩ := c
      obtain ⟨hn, hw, hrest⟩ := h
      have hstop := hrest.stop
      cases fuel with
      | zero => exact absurd hfuel (Nat.not_succ_le_zero _)
      | succ fuel =>
          unfold mpoolChunksFrom
          rw [if_pos (by omega), hw, wordUsed_word used hn, wordSize_word used hn,
            ih hrest (Nat.le_of_succ_le_succ hfuel)]

theorem Mpool.TiledBy.chunks (h : m.TiledBy cs) : mpoolChunks m = cs := by
  apply mpoolChunksFrom_eq h.tiles
  have hlen := length_le_extent cs
  rw [h.extent_eq] at hlen
  omega

theorem Mpool.TiledBy.store {off : ℕ} {bytes : List UInt8} (h : m.TiledBy cs)
    (hb : (b, k) ∈ usedBlocks 0 cs) (hle : off + bytes.length ≤ k) :
    TiledBy { m with mem := m.mem.write (b + off) bytes } cs := by
  obtain ⟨pre, rest, rfl, -, rfl, -, hk31, -, -⟩ := h.block hb
  have hw := h.tiles.header.1
  rw [Nat.zero_add] at hw
  have hext : extent [(true, k)] = 4 + k := by
    simp [extent]
  refine h.replace [(true, k)] [(true, k)] m.free ⟨hk31, ?_, ?_⟩
    (fun i hi => Bytes.write_of_lt (by omega)) (fun i hi => Bytes.write_of_ge (by omega))
  · rw [Bytes.get32_congr fun i hi => Bytes.write_of_lt (by omega)]
    exact hw
  · change extent pre + 4 + k = _
    omega

/-! ## Runs -/

/-- The first free run that holds `size` is taken whole or leaves room for a header. -/
def Mpool.Fits (m : Mpool) (size : ℕ) : Prop := FitsFirst size (mpoolChunks m)

/-- The size of the chunk of a block. -/
def Mpool.blockSize (m : Mpool) (b : ℕ) : ℕ := wordSize (m.mem.get32 (b - 4))

def Mpool.Inner (m : Mpool) (b : ℕ) : Prop := b + m.blockSize b < m.size

/-- The chunk behind a block is free and gives it `size` bytes. -/
def Mpool.Grows (m : Mpool) (b size : ℕ) : Prop :=
  wordUsed (m.mem.get32 (b + m.blockSize b)) = false ∧
    size - m.blockSize b < m.mem.get32 (b + m.blockSize b) + 4

/-- Blocks given to the pool are held, and stores go inside blocks held. -/
def MpoolOp.Valid (s : MpoolState) : MpoolOp → Prop
  | .alloc _ => True
  | .free b => ∃ n, (b, n) ∈ s.live
  | .realloc none _ => True
  | .realloc (some b) _ => ∃ n, (b, n) ∈ s.live
  | .store b off bytes => ∃ n, (b, n) ∈ s.live ∧ off + bytes.length ≤ n

/-- No header outside the region is read or written, and no block is moved. -/
def MpoolOp.Keeps (s : MpoolState) : MpoolOp → Prop
  | .alloc size => s.pool.Fits size
  | .free b => s.pool.Inner b
  | .realloc none size => s.pool.Fits size
  | .realloc (some b) size =>
      if size = 0 then s.pool.Inner b
      else size < s.pool.blockSize b ∨ s.pool.Inner b ∧
        (s.pool.Grows b size ∨ NoRun size (mpoolChunks s.pool))
  | .store _ _ _ => True

/-- The chunks met from the start tile the region, and the blocks held are apart and inside. -/
structure MpoolState.Intact (s : MpoolState) : Prop where
  tiled : Tiles s.pool.mem 0 (mpoolChunks s.pool) s.pool.size
  apart : s.live.Pairwise fun x y => x.1 + x.2 ≤ y.1 ∨ y.1 + y.2 ≤ x.1
  inside : ∀ x ∈ s.live, x.1 + x.2 ≤ s.pool.size

/-- The invariant of a pool over a region of `size` bytes. -/
structure MpoolState.Inv (size : ℕ) (s : MpoolState) : Prop where
  tiled : s.pool.TiledBy (mpoolChunks s.pool)
  holds : Holds (usedBlocks 0 (mpoolChunks s.pool)) s.live
  size_eq : s.pool.size = size
  size_pos : 0 < size

namespace MpoolState.Inv

variable {s : MpoolState} {size : ℕ}

theorem of_tiled {live : List (ℕ × ℕ)} (ht : m.TiledBy cs) (hh : Holds (usedBlocks 0 cs) live)
    (hsize : m.size = size) (hpos : 0 < size) : MpoolState.Inv size ⟨m, live⟩ :=
  ⟨ht.chunks.symm ▸ ht, ht.chunks.symm ▸ hh, hsize, hpos⟩

theorem intact (h : s.Inv size) : s.Intact := by
  refine ⟨h.tiled.tiles, h.holds.disjoint, fun x hx => ?_⟩
  obtain ⟨k, hk, hle⟩ := h.holds.covered x.1 x.2 hx
  have hb := (usedBlocks_bounds hk).2
  have hext := h.tiled.extent_eq
  omega

theorem block (h : s.Inv size) (hb : (b, n) ∈ s.live) :
    ∃ k, (b, k) ∈ usedBlocks 0 (mpoolChunks s.pool) ∧ n ≤ k ∧ s.pool.blockSize b = k ∧
      b + k ≤ s.pool.size := by
  obtain ⟨k, hk, hle⟩ := h.holds.covered b n hb
  obtain ⟨pre, rest, hcs, hpre, rfl, hw, hn, hend, -⟩ := h.tiled.block hk
  refine ⟨k, hk, hle, ?_, by omega⟩
  have hget := (hcs ▸ h.tiled.tiles).header.1
  rw [Nat.zero_add] at hget
  rw [Mpool.blockSize, hpre, hget, wordSize_word true hn]

theorem alloc (h : s.Inv size) (hfit : s.pool.Fits n) :
    ∃ m', mpoolAlloc s.pool n = some (none, m') ∧ MpoolState.Inv size ⟨m', s.live⟩ ∨
      ∃ b, mpoolAlloc s.pool n = some (some b, m') ∧
        MpoolState.Inv size ⟨m', (b, n) :: s.live⟩ := by
  obtain ⟨r, m', cs', halloc, hbec, -, -, hcases⟩ := mpoolAlloc_spec h.tiled hfit
  have hsize : m'.size = size := hbec.size.trans h.size_eq
  rcases hcases with ⟨rfl, -, hb⟩ | ⟨b, xs, ys, rfl, -, hA, hB⟩
  · exact ⟨m', Or.inl ⟨halloc, of_tiled hbec.tiled (hb ▸ h.holds) hsize h.size_pos⟩⟩
  · have hnodup := usedBlocks_nodup 0 cs'
    rw [hB, List.map_append, List.map_cons, List.nodup_middle, List.nodup_cons,
      ← List.map_append] at hnodup
    have hholds := (hA ▸ h.holds).add hnodup.1 (le_refl n)
    exact ⟨m', Or.inr ⟨b, halloc, of_tiled hbec.tiled (hB ▸ hholds) hsize h.size_pos⟩⟩

theorem free (h : s.Inv size) (hb : (b, n) ∈ s.live) (hin : s.pool.Inner b) :
    ∃ m', mpoolFree s.pool (some b) = some m' ∧
      MpoolState.Inv size ⟨m', dropBlock s.live b⟩ := by
  obtain ⟨k, hk, -, hsize, -⟩ := h.block hb
  rw [Mpool.Inner, hsize] at hin
  obtain ⟨m', cs', A, B, hfree, hA, hB, hbec, -, -⟩ := mpoolFree_spec h.tiled hk hin
  have hholds := (hA ▸ h.holds).drop
  exact ⟨m', hfree, of_tiled hbec.tiled (hB ▸ hholds) (hbec.size.trans h.size_eq) h.size_pos⟩

theorem resized {cs' : List (Bool × ℕ)} {size' : ℕ} (h : s.Inv size)
    (hre : Resized s.pool m (mpoolChunks s.pool) cs' b n size') :
    MpoolState.Inv size ⟨m, (b, size') :: dropBlock s.live b⟩ := by
  obtain ⟨xs, ys, k, hle, hA, hB, hbec⟩ := hre.becomes
  have hnodup := usedBlocks_nodup 0 cs'
  rw [hB, List.map_append, List.map_cons, List.nodup_middle, List.nodup_cons,
    ← List.map_append] at hnodup
  have hholds := (hA ▸ h.holds).drop.add hnodup.1 hle
  exact of_tiled hbec.tiled (hB ▸ hholds) (hbec.size.trans h.size_eq) h.size_pos

theorem realloc {size' : ℕ} (h : s.Inv size) (hb : (b, n) ∈ s.live) (hpos : size' ≠ 0)
    (hkeep : size' < s.pool.blockSize b ∨ s.pool.Inner b ∧
      (s.pool.Grows b size' ∨ NoRun size' (mpoolChunks s.pool))) :
    ∃ m', mpoolRealloc s.pool (some b) size' = some (none, m') ∧
        MpoolState.Inv size ⟨m', s.live⟩ ∨
      mpoolRealloc s.pool (some b) size' = some (some b, m') ∧
        MpoolState.Inv size ⟨m', (b, size') :: dropBlock s.live b⟩ := by
  obtain ⟨k, hk, -, hsize, -⟩ := h.block hb
  rcases lt_or_ge size' k with hlt | hge
  · obtain ⟨m', cs', hre, hresized, -, -⟩ := mpoolRealloc_shrink h.tiled hk hpos hlt
    exact ⟨m', Or.inr ⟨hre, h.resized hresized⟩⟩
  · obtain ⟨hin, hor⟩ := hkeep.resolve_left (hsize ▸ not_lt.mpr hge)
    unfold Mpool.Inner at hin
    unfold Mpool.Grows at hor
    rw [hsize] at hin hor
    obtain ⟨pre, rest, hcs, -, rfl, -, -, hend, -⟩ := h.tiled.block hk
    cases rest with
    | nil =>
        have hend' : extent pre + 4 + k = s.pool.size := hend
        omega
    | cons c rest =>
        obtain ⟨u, j⟩ := c
        obtain ⟨hnext, hle⟩ := (hcs ▸ h.tiled).next_header
        have hget := hnext
        rw [Mpool.header_eq (by omega)] at hget
        rw [Option.some.inj hget] at hor
        by_cases hroom : wordUsed (word u j) = false ∧ size' - k < word u j + 4
        · obtain ⟨m', cs', hre, hresized, -, -⟩ :=
            mpoolRealloc_grow h.tiled hk hpos hge hnext hroom.1 hroom.2
          exact ⟨m', Or.inr ⟨hre, h.resized hresized⟩⟩
        · have hstay : wordUsed (word u j) = true ∨ size' - k ≥ word u j + 4 := by
            rcases Bool.eq_false_or_eq_true (wordUsed (word u j)) with hu | hu
            · exact Or.inl hu
            · exact Or.inr (not_lt.mp fun hlt => hroom ⟨hu, hlt⟩)
          obtain ⟨m', cs', hre, hbec, heq, -, -⟩ := mpoolRealloc_refused h.tiled hk hpos hge hnext
            hstay (hor.resolve_left hroom)
          exact ⟨m', Or.inl ⟨hre, of_tiled hbec.tiled (heq ▸ h.holds)
            (hbec.size.trans h.size_eq) h.size_pos⟩⟩

theorem store {off : ℕ} {bytes : List UInt8} (h : s.Inv size) (hb : (b, n) ∈ s.live)
    (hle : off + bytes.length ≤ n) :
    MpoolState.Inv size ⟨{ s.pool with mem := s.pool.mem.write (b + off) bytes }, s.live⟩ := by
  obtain ⟨k, hk, hnk, -, -⟩ := h.block hb
  exact of_tiled (h.tiled.store hk (hle.trans hnk)) h.holds h.size_eq h.size_pos

end MpoolState.Inv

/-- Every operation that reads and writes only headers inside the region keeps the pool. -/
theorem mpoolStep_inv (size : ℕ) (s : MpoolState) (op : MpoolOp) (h : s.Inv size)
    (hok : op.Valid s ∧ op.Keeps s) : ∃ r s', mpoolStep s op = some (r, s') ∧ s'.Inv size := by
  obtain ⟨hvalid, hkeep⟩ := hok
  cases op with
  | alloc n =>
      obtain ⟨m', ⟨halloc, hinv⟩ | ⟨b, halloc, hinv⟩⟩ := h.alloc hkeep
      · refine ⟨none, _, ?_, hinv⟩
        simp only [mpoolStep, halloc, Option.bind_eq_bind, Option.bind_some, Option.pure_def]
      · refine ⟨some b, _, ?_, hinv⟩
        simp only [mpoolStep, halloc, Option.bind_eq_bind, Option.bind_some, Option.pure_def]
  | free b =>
      obtain ⟨n, hb⟩ := hvalid
      obtain ⟨m', hfree, hinv⟩ := h.free hb hkeep
      refine ⟨none, _, ?_, hinv⟩
      simp only [mpoolStep, hfree, Option.bind_eq_bind, Option.bind_some, Option.pure_def]
  | realloc block n =>
      cases block with
      | none =>
          obtain ⟨m', ⟨halloc, hinv⟩ | ⟨b, halloc, hinv⟩⟩ := h.alloc hkeep
          · refine ⟨none, _, ?_, hinv⟩
            simp only [mpoolStep, mpoolRealloc, halloc, ite_self, Option.bind_eq_bind,
              Option.bind_some, Option.pure_def]
          · refine ⟨some b, _, ?_, hinv⟩
            simp only [mpoolStep, mpoolRealloc, halloc, Option.bind_eq_bind, Option.bind_some,
              Option.pure_def]
      | some b =>
          obtain ⟨k, hb⟩ := hvalid
          by_cases hzero : n = 0
          · rw [MpoolOp.Keeps, if_pos hzero] at hkeep
            obtain ⟨m', hfree, hinv⟩ := h.free hb hkeep
            refine ⟨none, _, ?_, hinv⟩
            simp only [mpoolStep, mpoolRealloc, if_pos hzero, hfree, Option.bind_eq_bind,
              Option.bind_some, Option.pure_def]
          · rw [MpoolOp.Keeps, if_neg hzero] at hkeep
            obtain ⟨m', ⟨hre, hinv⟩ | ⟨hre, hinv⟩⟩ := h.realloc hb hzero hkeep
            · refine ⟨none, _, ?_, hinv⟩
              simp only [mpoolStep, hre, if_neg hzero, Option.bind_eq_bind, Option.bind_some,
                Option.pure_def]
            · refine ⟨some b, _, ?_, hinv⟩
              simp only [mpoolStep, hre, Option.bind_eq_bind, Option.bind_some, Option.pure_def]
  | store b off bytes =>
      obtain ⟨n, hb, hle⟩ := hvalid
      exact ⟨none, _, rfl, h.store hb hle⟩

theorem mpoolInit_inv (mem : Bytes) {size : ℕ} (hlo : 4 ≤ size) (hhi : size ≤ 2 ^ 31) :
    MpoolState.Inv size ⟨mpoolInit mem size, []⟩ := by
  have hholds : Holds (usedBlocks 0 [(false, size - 4)]) [] :=
    ⟨List.nodup_nil, fun _ _ hmem => absurd hmem List.not_mem_nil⟩
  exact .of_tiled (mpoolInit_tiled mem hlo hhi) hholds rfl (by omega)

/-- The chunks of a pool tile its region as long as allocations leave no room too small for
a header, and no block is freed or resized at the end of the region or moved. -/
theorem mpool_keeps_tiled (mem : Bytes) (size : ℕ) (ops : List MpoolOp) (hlo : 4 < size)
    (hhi : size < 2 ^ 31)
    (hops : Meets mpoolStep (fun s op => op.Valid s ∧ op.Keeps s) ⟨mpoolInit mem size, []⟩ ops) :
    ∃ rs s', runAll mpoolStep ⟨mpoolInit mem size, []⟩ ops = some (rs, s') ∧
      s'.pool.size = size ∧ s'.Intact := by
  obtain ⟨rs, s', hrun, hinv⟩ := runAll_invariant (MpoolState.Inv size) (mpoolStep_inv size)
    (mpoolInit_inv mem hlo.le hhi.le) hops
  exact ⟨rs, s', hrun, hinv.size_eq, hinv.intact⟩

theorem mpool_keeps_tiled_two : ∃ rs s',
    runAll mpoolStep ⟨mpoolInit (fun _ => 7) 64, []⟩
        [.alloc 8, .alloc 8, .store 4 0 [1, 2], .free 4] = some (rs, s') ∧
      s'.pool.size = 64 ∧ s'.Intact := by
  refine mpool_keeps_tiled (fun _ => 7) 64 _ (by norm_num) (by norm_num) ⟨⟨trivial, ?_⟩, ?_⟩
  · exact fitsFirst_last (x := []) (n := 60) rfl (by decide) (by decide)
  rintro r s ⟨⟩
  refine ⟨⟨trivial, ?_⟩, ?_⟩
  · exact fitsFirst_last (x := [(true, 8)]) (n := 48) rfl (by decide) (by decide)
  rintro r s ⟨⟩
  refine ⟨⟨⟨8, by decide, by decide⟩, trivial⟩, ?_⟩
  rintro r s ⟨⟩
  refine ⟨⟨⟨8, by decide⟩, ?_⟩, fun _ _ _ => trivial⟩
  unfold MpoolOp.Keeps Mpool.Inner
  decide

/-- An allocation that leaves two bytes writes a header over the end of the region, and
freeing the last chunk reads one behind it. -/
theorem mpoolRun_stuck :
    (Meets mpoolStep (fun s op => op.Valid s) ⟨mpoolInit (fun _ => 7) 16, []⟩ [.alloc 10] ∧
      runAll mpoolStep ⟨mpoolInit (fun _ => 7) 16, []⟩ [.alloc 10] = none) ∧
    Meets mpoolStep (fun s op => op.Valid s) ⟨mpoolInit (fun _ => 7) 16, []⟩
        [.alloc 12, .free 4] ∧
      runAll mpoolStep ⟨mpoolInit (fun _ => 7) 16, []⟩ [.alloc 12, .free 4] = none := by
  refine ⟨⟨⟨trivial, fun _ _ _ => trivial⟩, rfl⟩, ⟨trivial, ?_⟩, rfl⟩
  rintro r s ⟨⟩
  exact ⟨⟨12, by decide⟩, fun _ _ _ => trivial⟩

end Carthage
