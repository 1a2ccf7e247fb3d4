import Carthage.BlockBytes

/-!
# Regions tiled by chunks

A region of memory is tiled when it is a sequence of chunks, each a header word that gives
its size and, in the top bit, whether it is in use. Rewriting some chunks leaves the tiling
before and behind them alone. The blocks in use never overlap.
-/

namespace Carthage

namespace Bytes

variable {mem mem' : Bytes} {p q v : ℕ}

/-- The little-endian word at `p`. -/
def get32 (mem : Bytes) (p : ℕ) : ℕ :=
  (mem p).toNat + 2 ^ 8 * (mem (p + 1)).toNat + 2 ^ 16 * (mem (p + 2)).toNat +
    2 ^ 24 * (mem (p + 3)).toNat

def put32 (mem : Bytes) (p v : ℕ) : Bytes :=
  mem.write p [.ofNat v, .ofNat (v / 2 ^ 8), .ofNat (v / 2 ^ 16), .ofNat (v / 2 ^ 24)]

theorem get32_congr (h : ∀ i < 4, mem' (p + i) = mem (p + i)) : mem'.get32 p = mem.get32 p := by
  have h0 := h 0 (by norm_num)
  have h1 := h 1 (by norm_num)
  have h2 := h 2 (by norm_num)
  have h3 := h 3 (by norm_num)
  unfold get32
  rw [h1, h2, h3]
  exact congrArg (· + _ + _ + _) (congrArg UInt8.toNat h0)

theorem get32_put32 (mem : Bytes) (p : ℕ) (hv : v < 2 ^ 32) : (mem.put32 p v).get32 p = v := by
  have hdig : ∀ i < 4, (mem.put32 p v) (p + i) = .ofNat (v / 2 ^ (8 * i)) := by
    intro i hi
    unfold put32 write
    rw [if_pos (by omega), Nat.add_sub_cancel_left]
    interval_cases i <;> simp
  have h0 := hdig 0 (by norm_num)
  rw [Nat.add_zero, Nat.mul_zero, Nat.pow_zero, Nat.div_one] at h0
  unfold get32
  rw [h0, hdig 1 (by norm_num), hdig 2 (by norm_num), hdig 3 (by norm_num)]
  simp only [UInt8.toNat_ofNat']
  omega

theorem put32_of_notMem {i : ℕ} (h : i < p ∨ p + 4 ≤ i) : mem.put32 p v i = mem i := by
  rcases h with hlt | hge
  · exact write_of_lt hlt
  · exact write_of_ge hge

end Bytes

/-- The header of a chunk of `n` bytes. -/
def word (used : Bool) (n : ℕ) : ℕ := (if used then 2 ^ 31 else 0) + n

def wordUsed (h : ℕ) : Bool := 2 ^ 31 ≤ h

def wordSize (h : ℕ) : ℕ := h % 2 ^ 31

section Word

variable {used : Bool} {n : ℕ}

theorem word_false (n : ℕ) : word false n = n := Nat.zero_add n

theorem word_lt (used : Bool) (hn : n < 2 ^ 31) : word used n < 2 ^ 32 := by
  unfold word
  split_ifs <;> omega

theorem wordUsed_word (used : Bool) (hn : n < 2 ^ 31) : wordUsed (word used n) = used := by
  unfold wordUsed word
  cases used with
  | true => exact decide_eq_true (Nat.le_add_right _ _)
  | false =>
      rw [if_neg Bool.false_ne_true, Nat.zero_add]
      exact decide_eq_false (not_le.mpr hn)

theorem wordSize_word (used : Bool) (hn : n < 2 ^ 31) : wordSize (word used n) = n := by
  unfold wordSize word
  split_ifs <;> omega

theorem word_inj {u : Bool} {k : ℕ} (hn : n < 2 ^ 31) (hk : k < 2 ^ 31)
    (h : word used n = word u k) : used = u ∧ n = k :=
  ⟨by rw [← wordUsed_word used hn, h, wordUsed_word u hk],
    by rw [← wordSize_word used hn, h, wordSize_word u hk]⟩

end Word

/-- From `p`, the chunks `cs` reach exactly to `e`. -/
def Tiles (mem : Bytes) : ℕ → List (Bool × ℕ) → ℕ → Prop
  | p, [], e => p = e
  | p, (used, n) :: cs, e =>
      n < 2 ^ 31 ∧ mem.get32 p = word used n ∧ Tiles mem (p + 4 + n) cs e

/-- The bytes that chunks take up, headers included. -/
def extent (cs : List (Bool × ℕ)) : ℕ := (cs.map fun c => 4 + c.2).sum

/-- The blocks in use, with their sizes. -/
def usedBlocks : ℕ → List (Bool × ℕ) → List (ℕ × ℕ)
  | _, [] => []
  | p, (used, n) :: cs =>
      if used then (p + 4, n) :: usedBlocks (p + 4 + n) cs else usedBlocks (p + 4 + n) cs

namespace Tiles

variable {mem mem' : Bytes} {p e : ℕ} {xs ys zs cs ds : List (Bool × ℕ)} {used : Bool} {n : ℕ}

theorem append_iff : Tiles mem p (xs ++ ys) e ↔
    Tiles mem p xs (p + extent xs) ∧ Tiles mem (p + extent xs) ys e := by
  induction xs generalizing p with
  | nil => exact ⟨fun h => ⟨rfl, h⟩, fun h => h.2⟩
  | cons c xs ih =>
      obtain ⟨used, n⟩ := c
      have hext : p + extent ((used, n) :: xs) = p + 4 + n + extent xs := by
        simp only [extent, List.map_cons, List.sum_cons]
        omega
      rw [hext]
      constructor
      · rintro ⟨hn, hw, hrest⟩
        obtain ⟨hxs, hys⟩ := ih.mp hrest
        exact ⟨⟨hn, hw, hxs⟩, hys⟩
      · rintro ⟨⟨hn, hw, hxs⟩, hys⟩
        exact ⟨hn, hw, ih.mpr ⟨hxs, hys⟩⟩

theorem stop (h : Tiles mem p cs e) : e = p + extent cs := by
  rw [← List.append_nil cs, append_iff] at h
  exact h.2.symm

theorem congr (h : Tiles mem p cs e) (heq : ∀ i, p ≤ i → i < e → mem' i = mem i) :
    Tiles mem' p cs e := by
  induction cs generalizing p with
  | nil => exact h
  | cons c cs ih =>
      obtain ⟨used, n⟩ := c
      obtain ⟨hn, hw, hrest⟩ := h
      have hle := hrest.stop
      refine ⟨hn, ?_, ih hrest fun i h1 h2 => heq i (by omega) h2⟩
      rw [Bytes.get32_congr fun i hi => heq (p + i) (by omega) (by omega)]
      exact hw

theorem replace (h : Tiles mem p (xs ++ (ys ++ cs)) e)
    (hzs : Tiles mem' (p + extent xs) zs (p + extent xs + extent ys))
    (hlow : ∀ i < p + extent xs, mem' i = mem i)
    (hhigh : ∀ i, p + extent xs + extent ys ≤ i → mem' i = mem i) :
    Tiles mem' p (xs ++ (zs ++ cs)) e := by
  obtain ⟨hxs, hrest⟩ := append_iff.mp h
  obtain ⟨-, hcs⟩ := append_iff.mp hrest
  have hext : p + extent xs + extent ys = p + extent xs + extent zs := hzs.stop
  refine append_iff.mpr ⟨hxs.congr fun i _ hi => hlow i hi, append_iff.mpr ⟨hext ▸ hzs, ?_⟩⟩
  rw [← hext]
  exact hcs.congr fun i hi _ => hhigh i hi

theorem header (h : Tiles mem p (xs ++ (used, n) :: cs) e) :
    mem.get32 (p + extent xs) = word used n ∧ n < 2 ^ 31 ∧
      Tiles mem (p + extent xs + 4 + n) cs e ∧ p + extent xs + 4 + n ≤ e := by
  obtain ⟨-, hn, hw, hrest⟩ := append_iff.mp h
  exact ⟨hw, hn, hrest, hrest.stop ▸ Nat.le_add_right _ _⟩

theorem unique (h : Tiles mem p cs e) (h' : Tiles mem p ds e) : cs = ds := by
  induction cs generalizing p ds with
  | nil =>
      cases ds with
      | nil => rfl
      | cons c ds =>
          obtain ⟨used, n⟩ := c
          have hpe : p = e := h
          have hle := h'.2.2.stop
          omega
  | cons c cs ih =>
      obtain ⟨used, n⟩ := c
      cases ds with
      | nil =>
          have hpe : p = e := h'
          have hle := h.2.2.stop
          omega
      | cons c' ds =>
          obtain ⟨used', n'⟩ := c'
          obtain ⟨hn, hw, hrest⟩ := h
          obtain ⟨hn', hw', hrest'⟩ := h'
          rw [hw] at hw'
          obtain ⟨rfl, rfl⟩ := word_inj hn hn' hw'
          rw [ih hrest hrest']

end Tiles

/-! ## Blocks in use -/

variable {p b s : ℕ} {xs ys cs : List (Bool × ℕ)}

theorem extent_append : extent (xs ++ ys) = extent xs + extent ys := by
  unfold extent
  rw [List.map_append, List.sum_append]

theorem extent_cons {used : Bool} {n : ℕ} : extent ((used, n) :: cs) = 4 + n + extent cs := rfl

theorem usedBlocks_append : usedBlocks p (xs ++ ys) =
    usedBlocks p xs ++ usedBlocks (p + extent xs) ys := by
  induction xs generalizing p with
  | nil => rfl
  | cons c xs ih =>
      obtain ⟨used, n⟩ := c
      have hext : p + extent ((used, n) :: xs) = p + 4 + n + extent xs := by
        simp only [extent, List.map_cons, List.sum_cons]
        omega
      rw [List.cons_append, usedBlocks, usedBlocks, ih, hext]
      split_ifs
      · rfl
      · rfl

theorem usedBlocks_mem (h : (b, s) ∈ usedBlocks p cs) :
    ∃ xs ys, cs = xs ++ (true, s) :: ys ∧ b = p + extent xs + 4 := by
  induction cs generalizing p with
  | nil => cases h
  | cons c cs ih =>
      obtain ⟨used, n⟩ := c
      have hcases : used = true ∧ (b, s) = (p + 4, n) ∨ (b, s) ∈ usedBlocks (p + 4 + n) cs := by
        unfold usedBlocks at h
        split_ifs at h with hused
        · exact (List.mem_cons.mp h).imp (fun hb => ⟨hused, hb⟩) id
        · exact Or.inr h
      rcases hcases with ⟨rfl, hb⟩ | hb
      · obtain ⟨rfl, rfl⟩ := Prod.mk.inj hb
        exact ⟨[], cs, rfl, rfl⟩
      · obtain ⟨xs, ys, rfl, rfl⟩ := ih hb
        refine ⟨(used, n) :: xs, ys, rfl, ?_⟩
        simp only [extent, List.map_cons, List.sum_cons]
        omega

theorem usedBlocks_bounds (h : (b, s) ∈ usedBlocks p cs) : p + 4 ≤ b ∧ b + s ≤ p + extent cs := by
  obtain ⟨xs, ys, rfl, rfl⟩ := usedBlocks_mem h
  rw [extent_append]
  simp only [extent, List.map_cons, List.sum_cons]
  omega

theorem usedBlocks_pairwise (p : ℕ) (cs : List (Bool × ℕ)) :
    (usedBlocks p cs).Pairwise fun x y => x.1 + x.2 + 4 ≤ y.1 := by
  induction cs generalizing p with
  | nil => exact List.Pairwise.nil
  | cons c cs ih =>
      obtain ⟨used, n⟩ := c
      unfold usedBlocks
      split_ifs
      · refine List.pairwise_cons.mpr ⟨fun y hy => ?_, ih _⟩
        exact (usedBlocks_bounds (b := y.1) (s := y.2) hy).1
      · exact ih _

theorem usedBlocks_disjoint {b' s' : ℕ} (h : (b, s) ∈ usedBlocks p cs)
    (h' : (b', s') ∈ usedBlocks p cs) : (b, s) = (b', s') ∨ b + s ≤ b' ∨ b' + s' ≤ b := by
  rcases eq_or_ne (b, s) (b', s') with he | hne
  · exact Or.inl he
  · right
    let R : ℕ × ℕ → ℕ × ℕ → Prop := fun x y => x.1 + x.2 ≤ y.1 ∨ y.1 + y.2 ≤ x.1
    have hsymm : Std.Symm R := ⟨fun _ _ hxy => hxy.symm⟩
    have hpair : (usedBlocks p cs).Pairwise R :=
      (usedBlocks_pairwise p cs).imp fun hxy => Or.inl (by omega)
    exact hpair.forall h h' hne

end Carthage
