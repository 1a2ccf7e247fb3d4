import Carthage.Mpool

/-!
# Pools stay tiled

What a pool does to its chunks is stated on the list of chunks that tile the region.
-/

namespace Carthage

variable {m m' : Mpool} {size p n k : ℕ} {pre rest cs : List (Bool × ℕ)}

namespace Mpool

theorem header_eq (h : p + 4 ≤ m.size) : m.header p = some (m.mem.get32 p) := if_pos h

theorem setHeader_eq (h : p + 4 ≤ m.size) (v : ℕ) :
    m.setHeader p v = some { m with mem := m.mem.put32 p v } := if_pos h

/-- The chunks `cs` tile the region. -/
structure TiledBy (m : Mpool) (cs : List (Bool × ℕ)) : Prop where
  tiles : Tiles m.mem 0 cs m.size
  small : m.size ≤ 2 ^ 31

namespace TiledBy

variable {used : Bool} {ys zs : List (Bool × ℕ)} {mem : Bytes}

theorem extent_eq (h : m.TiledBy cs) : extent cs = m.size := by
  rw [h.tiles.stop, Nat.zero_add]

theorem header (h : m.TiledBy (pre ++ (used, n) :: rest)) :
    m.header (extent pre) = some (word used n) ∧
      extent pre + 4 + n + extent rest = m.size := by
  obtain ⟨hw, -, hrest, hle⟩ := h.tiles.header
  rw [Nat.zero_add] at hw hrest hle
  rw [header_eq (by omega), hw]
  exact ⟨rfl, hrest.stop.symm⟩

theorem extent_rest (h : m.TiledBy (pre ++ rest)) : extent pre + extent rest = m.size := by
  rw [← extent_append, h.extent_eq]

theorem next_header {u : Bool} (h : m.TiledBy (pre ++ (used, n) :: (u, k) :: rest)) :
    m.header (extent pre + 4 + n) = some (word u k) ∧
      extent pre + 4 + n + 4 + k + extent rest = m.size := by
  have hpre : extent (pre ++ [(used, n)]) = extent pre + 4 + n := by
    rw [extent_append, extent_cons, ← Nat.add_assoc, ← Nat.add_assoc]
    rfl
  have h' : m.TiledBy ((pre ++ [(used, n)]) ++ (u, k) :: rest) := by
    rwa [List.append_assoc]
  rw [← hpre]
  exact h'.header

variable (ys zs) in
theorem replace (h : m.TiledBy (pre ++ (ys ++ rest))) (free : ℕ)
    (hzs : Tiles mem (extent pre) zs (extent pre + extent ys))
    (hlow : ∀ i < extent pre, mem i = m.mem i)
    (hhigh : ∀ i, extent pre + extent ys ≤ i → mem i = m.mem i) :
    TiledBy ⟨mem, m.size, free⟩ (pre ++ (zs ++ rest)) := by
  refine ⟨h.tiles.replace ?_ ?_ ?_, h.small⟩
  · rwa [Nat.zero_add]
  · rwa [Nat.zero_add]
  · rwa [Nat.zero_add]

theorem merge (h : m.TiledBy (pre ++ (used, n) :: (false, k) :: rest)) (free : ℕ) :
    TiledBy ⟨m.mem.put32 (extent pre) (word used (n + 4 + k)), m.size, free⟩
      (pre ++ (used, n + 4 + k) :: rest) := by
  have hsize := h.extent_rest
  have hsmall := h.small
  have hext : extent [(used, n), (false, k)] = 4 + n + (4 + k) := by
    simp [extent]
  have hall : extent ((used, n) :: (false, k) :: rest) = 4 + n + (4 + k) + extent rest := by
    simp only [extent, List.map_cons, List.sum_cons]
    omega
  rw [hall] at hsize
  refine h.replace [(used, n), (false, k)] [(used, n + 4 + k)] free
    ⟨by omega, ?_, ?_⟩ (fun i hi => Bytes.put32_of_notMem (Or.inl hi))
    (fun i hi => Bytes.put32_of_notMem (Or.inr (by omega)))
  · exact Bytes.get32_put32 _ _ (word_lt used (by omega))
  · change extent pre + 4 + (n + 4 + k) = _
    omega

theorem mark (h : m.TiledBy (pre ++ (used, n) :: rest)) (u : Bool) (free : ℕ) :
    TiledBy ⟨m.mem.put32 (extent pre) (word u n), m.size, free⟩
      (pre ++ (u, n) :: rest) := by
  obtain ⟨-, hn, -, -⟩ := h.tiles.header
  have hext : extent [(used, n)] = 4 + n := by
    simp [extent]
  refine h.replace [(used, n)] [(u, n)] free ⟨hn, ?_, ?_⟩
    (fun i hi => Bytes.put32_of_notMem (Or.inl hi))
    (fun i hi => Bytes.put32_of_notMem (Or.inr (by omega)))
  · exact Bytes.get32_put32 _ _ (word_lt u hn)
  · change extent pre + 4 + n = _
    omega

theorem split (h : m.TiledBy (pre ++ (used, n) :: rest)) (hn : size + 4 ≤ n) (free : ℕ)
    (h1 : mem.get32 (extent pre) = word true size)
    (h2 : mem.get32 (extent pre + 4 + size) = word false (n - size - 4))
    (hout : ∀ i, i < extent pre ∨ extent pre + 4 + n ≤ i → mem i = m.mem i) :
    TiledBy ⟨mem, m.size, free⟩ (pre ++ (true, size) :: (false, n - size - 4) :: rest) := by
  obtain ⟨-, hsmall, -, -⟩ := h.tiles.header
  have hext : extent [(used, n)] = 4 + n := by
    simp [extent]
  refine h.replace [(used, n)] [(true, size), (false, n - size - 4)] free
    ⟨by omega, h1, by omega, h2, ?_⟩ (fun i hi => hout i (Or.inl hi))
    (fun i hi => hout i (Or.inr (by omega)))
  change extent pre + 4 + size + 4 + (n - size - 4) = _
  omega

end TiledBy

end Mpool

theorem mpoolInit_tiled (mem : Bytes) (hlo : 4 ≤ size) (hhi : size ≤ 2 ^ 31) :
    (mpoolInit mem size).TiledBy [(false, size - 4)] := by
  have hsub : sub32 size 4 = size - 4 := sub32_eq (by omega) hlo
  have hmod : wordSize (sub32 size 4) = word false (size - 4) := by
    rw [hsub, wordSize, word_false, Nat.mod_eq_of_lt (by omega)]
  refine ⟨⟨by omega, ?_, ?_⟩, hhi⟩
  · change (mem.put32 0 (wordSize (sub32 size 4))).get32 0 = _
    rw [hmod]
    exact Bytes.get32_put32 _ _ (word_lt false (by omega))
  · change 0 + 4 + (size - 4) = size
    omega

/-! ## What an operation keeps -/

/-- The bytes of free chunks, their headers apart. -/
def freeBytes (cs : List (Bool × ℕ)) : ℕ := (cs.map fun c => if c.1 then 0 else c.2).sum

def Aligned (cs : List (Bool × ℕ)) : Prop := ∀ c ∈ cs, 4 ∣ c.2

def KeepsBlocks (blocks : List (ℕ × ℕ)) (m m' : Mpool) : Prop :=
  ∀ x ∈ blocks, ∀ i, x.1 ≤ i + 4 → i < x.1 + x.2 → m'.mem i = m.mem i

/-- The region is tiled by `cs'` now, and nothing was stored in `blocks`. -/
structure Mpool.Becomes (m m' : Mpool) (cs' : List (Bool × ℕ)) (blocks : List (ℕ × ℕ)) : Prop where
  size : m'.size = m.size
  tiled : m'.TiledBy cs'
  keeps : KeepsBlocks blocks m m'

theorem freeBytes_append : freeBytes (pre ++ rest) = freeBytes pre + freeBytes rest := by
  unfold freeBytes
  rw [List.map_append, List.sum_append]

theorem freeBytes_used (n : ℕ) (cs : List (Bool × ℕ)) :
    freeBytes ((true, n) :: cs) = freeBytes cs := Nat.zero_add _

theorem freeBytes_free (n : ℕ) (cs : List (Bool × ℕ)) :
    freeBytes ((false, n) :: cs) = n + freeBytes cs := rfl

theorem freeBytes_le (cs : List (Bool × ℕ)) : freeBytes cs ≤ extent cs := by
  induction cs with
  | nil => exact le_rfl
  | cons c cs ih =>
      obtain ⟨used, n⟩ := c
      rw [extent_cons]
      cases used with
      | true =>
          rw [freeBytes_used]
          omega
      | false =>
          rw [freeBytes_free]
          omega

theorem Mpool.TiledBy.freeBytes_le (h : m.TiledBy cs) : freeBytes cs ≤ 2 ^ 31 :=
  (Carthage.freeBytes_le cs).trans (h.extent_eq ▸ h.small)

theorem Aligned.replace (ys zs : List (Bool × ℕ)) (h : Aligned (pre ++ (ys ++ rest)))
    (hzs : Aligned ys → Aligned zs) : Aligned (pre ++ (zs ++ rest)) := by
  intro c hc
  rcases List.mem_append.mp hc with hc | hc
  · exact h c (List.mem_append_left _ hc)
  rcases List.mem_append.mp hc with hc | hc
  · apply hzs _ c hc
    exact fun d hd => h d (List.mem_append_right _ (List.mem_append_left _ hd))
  · exact h c (List.mem_append_right _ (List.mem_append_right _ hc))

theorem KeepsBlocks.refl (blocks : List (ℕ × ℕ)) (m : Mpool) : KeepsBlocks blocks m m :=
  fun _ _ _ _ _ => rfl

theorem KeepsBlocks.trans {blocks : List (ℕ × ℕ)} {m₁ m₂ : Mpool} (h : KeepsBlocks blocks m m₁)
    (h' : KeepsBlocks blocks m₁ m₂) : KeepsBlocks blocks m m₂ :=
  fun x hx i hlo hhi => (h' x hx i hlo hhi).trans (h x hx i hlo hhi)

theorem keepsBlocks_outside {q : ℕ} (pre rest : List (Bool × ℕ))
    (h : ∀ i, i < extent pre ∨ q ≤ i → m'.mem i = m.mem i) :
    KeepsBlocks (usedBlocks 0 pre ++ usedBlocks q rest) m m' := by
  intro x hx i hlo hhi
  rcases List.mem_append.mp hx with hx | hx
  · obtain ⟨-, hend⟩ := usedBlocks_bounds (b := x.1) (s := x.2) hx
    exact h i (Or.inl (by omega))
  · obtain ⟨hstart, -⟩ := usedBlocks_bounds (b := x.1) (s := x.2) hx
    exact h i (Or.inr (by omega))

theorem usedBlocks_free (pre : List (Bool × ℕ)) (n : ℕ) (rest : List (Bool × ℕ)) :
    usedBlocks 0 (pre ++ (false, n) :: rest) =
      usedBlocks 0 pre ++ usedBlocks (extent pre + 4 + n) rest := by
  rw [usedBlocks_append, usedBlocks, if_neg Bool.false_ne_true, Nat.zero_add]

theorem extent_concat (pre : List (Bool × ℕ)) (used : Bool) (n : ℕ) :
    extent (pre ++ [(used, n)]) = extent pre + 4 + n := by
  rw [extent_append, extent_cons, ← Nat.add_assoc, ← Nat.add_assoc]
  rfl

theorem length_le_extent (cs : List (Bool × ℕ)) : 4 * cs.length ≤ extent cs := by
  induction cs with
  | nil => exact Nat.zero_le _
  | cons c cs ih =>
      obtain ⟨used, n⟩ := c
      rw [extent_cons, List.length_cons]
      omega

theorem markUsed_eq (h : size < 2 ^ 31) : markUsed size = word true size := by
  unfold markUsed
  rw [Nat.mod_eq_of_lt h]

theorem Mpool.TiledBy.merge_becomes (h : m.TiledBy (pre ++ (false, n) :: (false, k) :: rest)) :
    m.Becomes ⟨m.mem.put32 (extent pre) (word false (n + 4 + k)), m.size, add32 m.free 4⟩
      (pre ++ (false, n + 4 + k) :: rest)
      (usedBlocks 0 (pre ++ (false, n) :: (false, k) :: rest)) := by
  refine ⟨rfl, h.merge _, ?_⟩
  rw [usedBlocks_free]
  refine keepsBlocks_outside pre _ fun i hi => Bytes.put32_of_notMem ?_
  omega

end Carthage
