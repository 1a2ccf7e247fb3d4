import Carthage.MpoolRealloc

/-!
# The count of free bytes

With requests and a region that are multiples of four, the count of a pool is the sum of the
sizes of its free chunks, as long as no block grows into a free chunk behind it by exactly the
size of that chunk: the header that is left over then stays inside the block, and is charged.
-/

namespace Carthage

variable {m : Mpool} {size n N : ℕ} {cs : List (Bool × ℕ)} {s s' : MpoolState} {r : Option ℕ}

/-- The size asked for is a multiple of four. -/
def MpoolOp.Multiple : MpoolOp → Prop
  | .alloc size => 4 ∣ size
  | .realloc _ size => 4 ∣ size
  | .free _ | .store _ _ _ => True

/-- No block takes exactly the free chunk behind it and leaves a header. -/
def MpoolOp.LeavesNone (s : MpoolState) : MpoolOp → Prop
  | .realloc (some b) size => size ≠ 0 →
      wordUsed (s.pool.mem.get32 (b + s.pool.blockSize b)) = false →
        size ≠ s.pool.blockSize b + s.pool.mem.get32 (b + s.pool.blockSize b)
  | _ => True

/-- The count of a pool whose chunk sizes are multiples of four is right. -/
structure MpoolState.Balanced (size : ℕ) (s : MpoolState) : Prop extends s.Inv size where
  aligned : Aligned (mpoolChunks s.pool)
  free : s.pool.free = freeBytes (mpoolChunks s.pool)

def Mpool.CountsFree (m : Mpool) : Prop := ∃ cs, m.TiledBy cs ∧ Aligned cs ∧ m.free = freeBytes cs

theorem Aligned.fitsFirst (ha : Aligned cs) (hd : 4 ∣ size) : FitsFirst size cs := by
  intro pre run post part hfirst hpart
  have hmem : ∀ c ∈ part, c ∈ cs := fun c hc => by
    rw [hfirst.eq]
    exact List.mem_append_right _ (List.mem_append_left _ (hpart.start.subset hc))
  have hdvd : 4 ∣ payload part :=
    Dvd.dvd.add (List.dvd_sum fun n hn => by
      obtain ⟨c, hc, rfl⟩ := List.mem_map.mp hn
      exact ha c (hmem c hc)) (Dvd.intro _ rfl)
  have hle := hpart.enough
  omega

namespace MpoolState.Balanced

theorem alloc (h : s.Balanced size) (hd : 4 ∣ n) :
    ∃ r m', mpoolAlloc s.pool n = some (r, m') ∧ m'.CountsFree := by
  obtain ⟨r, m', cs', halloc, hbec, hfree, halign, -⟩ :=
    mpoolAlloc_spec h.tiled (h.aligned.fitsFirst hd)
  exact ⟨r, m', halloc, cs', hbec.tiled, halign hd h.aligned, hfree h.free⟩

theorem free_inner {b : ℕ} (h : s.Balanced size) (hb : (b, n) ∈ s.live) {m' : Mpool}
    (hfree : mpoolFree s.pool (some b) = some m') : s.pool.Inner b := by
  obtain ⟨k, hk, -, hsize, hle⟩ := h.toInv.block hb
  obtain ⟨pre, rest, -, hpre, hat, hw, hk31, -, -⟩ := h.tiled.block hk
  by_contra hlast
  rw [Mpool.Inner, hsize, not_lt] at hlast
  have hput : s.pool.setHeader (extent pre) k =
      some { s.pool with mem := s.pool.mem.put32 (extent pre) k } := Mpool.setHeader_eq (by omega) k
  have hout : Mpool.header ⟨s.pool.mem.put32 (extent pre) k, s.pool.size, add32 s.pool.free k⟩
      (b + k) = none := if_neg (by
        change ¬ b + k + 4 ≤ s.pool.size
        omega)
  simp only [mpoolFree, hpre, hw, wordSize_word true hk31, hput, hout, Option.bind_eq_bind,
    Option.bind_some, Option.bind_none] at hfree
  cases hfree

theorem free_counts {b : ℕ} (h : s.Balanced size) (hb : (b, n) ∈ s.live) (hin : s.pool.Inner b) :
    ∃ m', mpoolFree s.pool (some b) = some m' ∧ m'.CountsFree := by
  obtain ⟨k, hk, -, hsize, -⟩ := h.toInv.block hb
  rw [Mpool.Inner, hsize] at hin
  obtain ⟨m', cs', A, B, hfree, -, -, hbec, hcount, halign⟩ := mpoolFree_spec h.tiled hk hin
  exact ⟨m', hfree, cs', hbec.tiled, halign h.aligned, hcount h.free⟩

theorem realloc_counts {b : ℕ} (h : s.Balanced size) (hb : (b, N) ∈ s.live) (hpos : n ≠ 0)
    (hd : 4 ∣ n) (hleaves : MpoolOp.LeavesNone s (.realloc (some b) n)) {x : Option ℕ × Mpool}
    (hre : mpoolRealloc s.pool (some b) n = some x) : x.2.CountsFree := by
  obtain ⟨k, hk, -, hsize, -⟩ := h.toInv.block hb
  have hexact := hleaves hpos
  rw [hsize] at hexact
  rcases lt_or_ge n k with hlt | hge
  · obtain ⟨m', cs', hre', hresized, hcount, halign⟩ := mpoolRealloc_shrink h.tiled hk hpos hlt
    obtain rfl := Option.some.inj (hre'.symm.trans hre)
    obtain ⟨A, B, k', -, -, -, hbec⟩ := hresized.becomes
    exact ⟨cs', hbec.tiled, halign hd h.aligned, hcount h.free⟩
  · have hstays := mpoolRealloc_stays h.tiled hk hpos hre
    obtain ⟨hin, hor⟩ := hstays.resolve_left (not_lt.mpr hge)
    have hnext := h.tiled.next hk hin
    by_cases hgrow : wordUsed (s.pool.mem.get32 (b + k)) = false ∧
        n - k < s.pool.mem.get32 (b + k) + 4
    · obtain ⟨m', cs', hre', hresized, hcount, halign⟩ :=
        mpoolRealloc_grow h.tiled hk hpos hge hnext hgrow.1 hgrow.2
      obtain rfl := Option.some.inj (hre'.symm.trans hre)
      obtain ⟨A, B, k', -, -, -, hbec⟩ := hresized.becomes
      obtain ⟨ha, hk4, ho4⟩ := halign hd h.aligned
      have hne := hexact hgrow.1
      have hlt := hgrow.2
      exact ⟨cs', hbec.tiled, ha, hcount (by omega) h.free⟩
    · obtain ⟨m', cs', hre', hbec, -, hcount, halign⟩ := mpoolRealloc_refused h.tiled hk hpos hge
        hnext (stays_or hgrow) (hor.resolve_left hgrow)
      obtain rfl := Option.some.inj (hre'.symm.trans hre)
      exact ⟨cs', hbec.tiled, halign hd h.aligned, hcount h.free⟩

theorem keeps {op : MpoolOp} (h : s.Balanced size) (hvalid : op.Valid s) (hmul : op.Multiple)
    (hop : mpoolStep s op = some (r, s')) : op.Keeps s := by
  cases op with
  | alloc n => exact h.aligned.fitsFirst hmul
  | free b =>
      obtain ⟨n, hb⟩ := hvalid
      obtain ⟨m', hfree, -⟩ := Option.bind_eq_some_iff.mp hop
      exact h.free_inner hb hfree
  | store b off bytes => trivial
  | realloc block n =>
      cases block with
      | none => exact h.aligned.fitsFirst hmul
      | some b =>
          obtain ⟨N, hb⟩ := hvalid
          obtain ⟨x, hre, -⟩ := Option.bind_eq_some_iff.mp hop
          obtain ⟨k, hk, -, hsize, -⟩ := h.toInv.block hb
          unfold MpoolOp.Keeps
          dsimp only
          split_ifs with hzero
          · unfold mpoolRealloc at hre
            dsimp only at hre
            rw [if_pos hzero] at hre
            obtain ⟨m', hfree, -⟩ := Option.bind_eq_some_iff.mp hre
            exact h.free_inner hb hfree
          · unfold Mpool.Inner Mpool.Grows
            rw [hsize]
            exact mpoolRealloc_stays h.tiled hk hzero hre

/-- What an operation does to the pool itself. -/
theorem step_counts {op : MpoolOp} (h : s.Balanced size) (hvalid : op.Valid s)
    (hmul : op.Multiple) (hleaves : op.LeavesNone s) (hop : mpoolStep s op = some (r, s')) :
    s'.pool.CountsFree := by
  cases op with
  | alloc n =>
      obtain ⟨x, halloc, hrest⟩ := Option.bind_eq_some_iff.mp hop
      obtain ⟨r', m', halloc', hcount⟩ := h.alloc hmul
      obtain rfl := Option.some.inj (halloc'.symm.trans halloc)
      cases r' with
      | none =>
          cases hrest
          exact hcount
      | some b =>
          cases hrest
          exact hcount
  | free b =>
      obtain ⟨n, hb⟩ := hvalid
      obtain ⟨m, hfree, hrest⟩ := Option.bind_eq_some_iff.mp hop
      obtain ⟨m', hfree', hcount⟩ := h.free_counts hb (h.free_inner hb hfree)
      obtain rfl := Option.some.inj (hfree'.symm.trans hfree)
      cases hrest
      exact hcount
  | store b off bytes =>
      obtain ⟨n, hb, hle⟩ := hvalid
      obtain ⟨k, hk, hnk, -, -⟩ := h.toInv.block hb
      cases hop
      exact ⟨_, h.tiled.store hk (hle.trans hnk), h.aligned, h.free⟩
  | realloc block n =>
      obtain ⟨⟨r', m'⟩, hre, hrest⟩ := Option.bind_eq_some_iff.mp hop
      have hpool : s'.pool = m' := by
        cases r' with
        | none =>
            cases hrest
            rfl
        | some b' =>
            cases hrest
            rfl
      rw [hpool]
      cases block with
      | none =>
          obtain ⟨r₁, m₁, halloc, hcount⟩ := h.alloc hmul
          obtain ⟨-, rfl⟩ := Prod.mk.inj (Option.some.inj (halloc.symm.trans hre))
          exact hcount
      | some b =>
          obtain ⟨N, hb⟩ := hvalid
          by_cases hzero : n = 0
          · unfold mpoolRealloc at hre
            dsimp only at hre
            rw [if_pos hzero] at hre
            obtain ⟨m, hfree, hre⟩ := Option.bind_eq_some_iff.mp hre
            obtain ⟨m₁, hfree', hcount⟩ := h.free_counts hb (h.free_inner hb hfree)
            obtain rfl := Option.some.inj (hfree'.symm.trans hfree)
            cases hre
            exact hcount
          · exact h.realloc_counts hb hzero hmul hleaves hre

theorem step {op : MpoolOp} (h : s.Balanced size)
    (hok : op.Valid s ∧ op.Multiple ∧ op.LeavesNone s) (hop : mpoolStep s op = some (r, s')) :
    s'.Balanced size := by
  obtain ⟨hvalid, hmul, hleaves⟩ := hok
  obtain ⟨r₁, s₁, hop₁, hinv⟩ := mpoolStep_inv size s op h.toInv ⟨hvalid, h.keeps hvalid hmul hop⟩
  obtain ⟨-, rfl⟩ := Prod.mk.inj (Option.some.inj (hop₁.symm.trans hop))
  obtain ⟨cs, ht, ha, hfree⟩ := h.step_counts hvalid hmul hleaves hop
  exact ⟨hinv, ht.chunks.symm ▸ ha, ht.chunks.symm ▸ hfree⟩

end MpoolState.Balanced

theorem mpoolInit_balanced (mem : Bytes) (hlo : 4 ≤ size) (hhi : size ≤ 2 ^ 31) (hd : 4 ∣ size) :
    MpoolState.Balanced size ⟨mpoolInit mem size, []⟩ := by
  have hchunks := (mpoolInit_tiled mem hlo hhi).chunks
  refine ⟨mpoolInit_inv mem hlo hhi, ?_, ?_⟩
  · change Aligned (mpoolChunks (mpoolInit mem size))
    rw [hchunks]
    exact aligned_singleton.mpr (by omega)
  · change sub32 size 4 = freeBytes (mpoolChunks (mpoolInit mem size))
    rw [hchunks, sub32_eq (by omega) hlo]
    rfl

/-- In every state that is reached the count of free bytes is right. -/
theorem mpool_counts_free (mem : Bytes) (size : ℕ) (ops : List MpoolOp) (hlo : 4 ≤ size)
    (hhi : size ≤ 2 ^ 31) (hd : 4 ∣ size)
    (hops : Meets mpoolStep (fun s op => op.Valid s ∧ op.Multiple ∧ op.LeavesNone s)
      ⟨mpoolInit mem size, []⟩ ops)
    {rs : List (Option ℕ)} (hrun : runAll mpoolStep ⟨mpoolInit mem size, []⟩ ops = some (rs, s')) :
    s'.pool.free = freeBytes (mpoolChunks s'.pool) ∧ s'.pool.free ≤ size := by
  have h := runAll_meets (MpoolState.Balanced size) (fun s op r s' h hok => h.step hok)
    (mpoolInit_balanced mem hlo hhi hd) hops hrun
  refine ⟨h.free, ?_⟩
  rw [h.free, ← h.size_eq, ← h.tiled.extent_eq]
  exact freeBytes_le _

theorem mpool_counts_free_three : ∃ rs s',
    runAll mpoolStep ⟨mpoolInit (fun _ => 7) 64, []⟩
        [.alloc 8, .alloc 8, .realloc (some 16) 16] = some (rs, s') ∧
      s'.pool.free = freeBytes (mpoolChunks s'.pool) ∧ s'.pool.free ≤ 64 := by
  refine ⟨_, _, rfl, mpool_counts_free (fun _ => 7) 64
    [.alloc 8, .alloc 8, .realloc (some 16) 16] (by norm_num) (by norm_num) (by norm_num) ?_ rfl⟩
  refine ⟨⟨trivial, ⟨2, rfl⟩, trivial⟩, ?_⟩
  rintro r s ⟨⟩
  refine ⟨⟨trivial, ⟨2, rfl⟩, trivial⟩, ?_⟩
  rintro r s ⟨⟩
  refine ⟨⟨⟨8, by decide⟩, ⟨4, rfl⟩, ?_⟩, fun _ _ _ => trivial⟩
  unfold MpoolOp.LeavesNone
  decide

/-- The block operated on is not the last chunk of the region. -/
def MpoolOp.OnInner (s : MpoolState) : MpoolOp → Prop
  | .free b | .realloc (some b) _ => s.pool.Inner b
  | _ => True

/-- Growing by exactly the size of the free chunk behind charges its header as well: the count
falls below zero. -/
theorem mpoolRun_uncounted :
    Meets mpoolStep (fun s op => op.Valid s ∧ op.Multiple ∧ op.OnInner s)
        ⟨mpoolInit (fun _ => 7) 32, []⟩ [.alloc 8, .realloc (some 4) 24] ∧
      ∃ rs s', runAll mpoolStep ⟨mpoolInit (fun _ => 7) 32, []⟩
          [.alloc 8, .realloc (some 4) 24] = some (rs, s') ∧
        freeBytes (mpoolChunks s'.pool) = 0 ∧ s'.pool.free = 2 ^ 32 - 4 := by
  refine ⟨⟨⟨trivial, ⟨2, rfl⟩, trivial⟩, ?_⟩, _, _, rfl, by decide, by decide⟩
  rintro r s ⟨⟩
  refine ⟨⟨⟨8, by decide⟩, ⟨6, rfl⟩, ?_⟩, fun _ _ _ => trivial⟩
  unfold MpoolOp.OnInner Mpool.Inner
  decide

end Carthage
