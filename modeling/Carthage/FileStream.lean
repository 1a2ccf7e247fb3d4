import Carthage.BlockBytes
import Mathlib.Algebra.BigOperators.Fin

/-!
# The file plug of a stream

`stream_file_read` and `stream_file_write` of `stream.c` call the operating system until all
bytes have moved or a call moves none. A transfer that leaves the buffer gets stuck.
-/

namespace Carthage

/-- What the operating system makes of the calls on a descriptor: `move i c` is the result of
call `i` when it is asked to move `c` bytes. -/
structure Descriptor where
  move : ℕ → ℕ → ℤ
  bounded : ∀ i c, move i c ≤ c

section Model

variable {S : Type} (fd : Descriptor) (n : ℕ) (effect : ℕ → ℕ → S → S)

/-- The loop of both functions: `effect p k` moves `k` bytes at offset `p` of the buffer. Every
call asks for `n` bytes. The result is the size, the number of calls and what has moved. -/
def transferLoop : ℕ → ℕ → ℕ → ℕ → S → Option (ℕ × ℕ × S)
  | 0, _, _, _, _ => none
  | fuel + 1, calls, size, p, s =>
      if size < n then
        let moved := fd.move calls n
        if moved ≤ 0 then some (size, calls + 1, s)
        else if p + moved.toNat ≤ n then
          transferLoop fuel (calls + 1) (size + moved.toNat) (p + moved.toNat)
            (effect p moved.toNat s)
        else none
      else some (size, calls, s)

/-- Reads from position `pos` of `file` into the buffer `mem` of `n` bytes. -/
def streamFileRead (file : Bytes) (pos : ℕ) (mem : Bytes) : Option (ℕ × ℕ × Bytes × ℕ) :=
  transferLoop fd n (fun p k s => (s.1.write p (file.read s.2 k), s.2 + k)) (n + 1) 0 0 0 (mem, pos)

def streamFileWrite (buffer : Bytes) : Option (ℕ × ℕ × List UInt8) :=
  transferLoop fd n (fun p k sent => sent ++ buffer.read p k) (n + 1) 0 0 0 []

end Model

namespace Descriptor

variable {S : Type} {fd : Descriptor} {n : ℕ} {effect : ℕ → ℕ → S → S}

/-- As long as bytes are missing and no call has failed, the next call moves no more than what
is missing. -/
def Within (fd : Descriptor) (n : ℕ) : Prop :=
  ∀ i, (∀ j < i, 0 < fd.move j n) → ∑ j ∈ Finset.range i, fd.move j n < n →
    ∑ j ∈ Finset.range i, fd.move j n + fd.move i n ≤ n

/-- The loop after `calls` calls that have moved `p` bytes. -/
structure Underway (fd : Descriptor) (n calls p : ℕ) : Prop where
  moved : ∀ j < calls, 0 < fd.move j n
  total : ∑ j ∈ Finset.range calls, fd.move j n = p
  inside : p ≤ n

theorem Underway.next {calls p : ℕ} (h : fd.Underway n calls p) (hpos : 0 < fd.move calls n)
    (hle : p + (fd.move calls n).toNat ≤ n) :
    fd.Underway n (calls + 1) (p + (fd.move calls n).toNat) := by
  refine ⟨fun j hj => ?_, ?_, hle⟩
  · rcases Nat.lt_succ_iff_lt_or_eq.mp hj with hj | rfl
    · exact h.moved j hj
    · exact hpos
  · rw [Finset.sum_range_succ, h.total]
    omega

theorem transferLoop_within {I : ℕ → S → Prop} (hI : ∀ p k s, I p s → I (p + k) (effect p k s))
    (hfd : fd.Within n) {calls p : ℕ} {s : S} (h : fd.Underway n calls p) (hs : I p s)
    (fuel : ℕ) (hfuel : n < fuel + p) :
    ∃ r made s', transferLoop fd n effect fuel calls p p s = some (r, made, s') ∧ r ≤ n ∧
      I r s' ∧ (r < n → ∃ c, made = c + 1 ∧ fd.move c n ≤ 0) := by
  induction fuel generalizing calls p s with
  | zero =>
      have hinside := h.inside
      omega
  | succ fuel ih =>
      rw [transferLoop]
      by_cases hlt : p < n
      swap
      · rw [if_neg hlt]
        exact ⟨p, calls, s, rfl, h.inside, hs, fun hp => absurd hp hlt⟩
      rw [if_pos hlt]
      by_cases hfail : fd.move calls n ≤ 0
      · exact ⟨p, calls + 1, s, if_pos hfail, h.inside, hs, fun _ => ⟨calls, rfl, hfail⟩⟩
      have hpos : 0 < fd.move calls n := not_le.mp hfail
      have hle : p + (fd.move calls n).toNat ≤ n := by
        have hnext := hfd calls h.moved (by rw [h.total]; exact_mod_cast hlt)
        rw [h.total] at hnext
        omega
      simp only [if_neg hfail, if_pos hle]
      exact ih (h.next hpos hle) (hI _ _ _ hs) (by omega)

theorem within_of_transferLoop {fuel calls p : ℕ} {s : S} (h : fd.Underway n calls p)
    (hrun : transferLoop fd n effect fuel calls p p s ≠ none) :
    ∀ i, calls ≤ i → (∀ j < i, 0 < fd.move j n) → ∑ j ∈ Finset.range i, fd.move j n < n →
      ∑ j ∈ Finset.range i, fd.move j n + fd.move i n ≤ n := by
  induction fuel generalizing calls p s with
  | zero => exact absurd rfl hrun
  | succ fuel ih =>
      intro i hi hmoved hsum
      have htotal : (p : ℤ) ≤ ∑ j ∈ Finset.range i, fd.move j n := by
        rw [← h.total]
        refine Finset.sum_le_sum_of_subset_of_nonneg (Finset.range_subset_range.mpr hi) ?_
        exact fun j hj _ => (hmoved j (Finset.mem_range.mp hj)).le
      have hlt : p < n := by omega
      rw [transferLoop, if_pos hlt] at hrun
      rcases Nat.eq_or_lt_of_le hi with rfl | hlater
      · rw [h.total]
        by_contra hover
        have hfail : ¬ fd.move calls n ≤ 0 := by omega
        have hout : ¬ p + (fd.move calls n).toNat ≤ n := by omega
        simp only [if_neg hfail, if_neg hout] at hrun
        exact hrun rfl
      · have hpos := hmoved calls hlater
        simp only [if_neg (not_le.mpr hpos)] at hrun
        by_cases hle : p + (fd.move calls n).toNat ≤ n
        · rw [if_pos hle] at hrun
          exact ih (h.next hpos hle) hrun i hlater hmoved hsum
        · rw [if_neg hle] at hrun
          exact absurd rfl hrun

theorem underway_start : fd.Underway n 0 0 :=
  ⟨fun j hj => absurd hj (Nat.not_lt_zero j), Finset.sum_range_zero _, Nat.zero_le n⟩

/-- A write sends the first `r` bytes of the buffer, where `r` is what it returns. -/
def Sends (fd : Descriptor) (n : ℕ) (buffer : Bytes) : Prop :=
  ∃ r calls sent, streamFileWrite fd n buffer = some (r, calls, sent) ∧ r ≤ n ∧
    sent = buffer.read 0 r ∧ (r < n → ∃ c, calls = c + 1 ∧ fd.move c n ≤ 0)

/-- A read stores the next `r` bytes of the file and nothing else, where `r` is what it returns. -/
def Stores (fd : Descriptor) (n : ℕ) (file : Bytes) (pos : ℕ) (mem : Bytes) : Prop :=
  ∃ r calls mem', streamFileRead fd n file pos mem = some (r, calls, mem', pos + r) ∧ r ≤ n ∧
    mem'.read 0 r = file.read pos r ∧ (∀ i, r ≤ i → mem' i = mem i) ∧
    (r < n → ∃ c, calls = c + 1 ∧ fd.move c n ≤ 0)

theorem sends_iff (buffer : Bytes) : fd.Sends n buffer ↔ fd.Within n := by
  constructor
  · rintro ⟨r, calls, sent, hrun, -⟩ i
    have hsome : streamFileWrite fd n buffer ≠ none := by simp [hrun]
    exact within_of_transferLoop underway_start hsome i (Nat.zero_le i)
  · intro hfd
    have hI : ∀ p k (sent : List UInt8), sent = buffer.read 0 p →
        sent ++ buffer.read p k = buffer.read 0 (p + k) := by
      rintro p k sent rfl
      rw [Bytes.read_add, Nat.zero_add]
    exact transferLoop_within (I := fun p sent => sent = buffer.read 0 p) hI hfd underway_start
      rfl (n + 1) (by omega)

theorem stores_iff (file : Bytes) (pos : ℕ) (mem : Bytes) :
    fd.Stores n file pos mem ↔ fd.Within n := by
  constructor
  · rintro ⟨r, calls, mem', hrun, -⟩ i
    have hsome : streamFileRead fd n file pos mem ≠ none := by simp [hrun]
    exact within_of_transferLoop underway_start hsome i (Nat.zero_le i)
  · intro hfd
    let I : ℕ → Bytes × ℕ → Prop := fun p s =>
      s.2 = pos + p ∧ s.1.read 0 p = file.read pos p ∧ ∀ i, p ≤ i → s.1 i = mem i
    have hI : ∀ p k s, I p s → I (p + k) (s.1.write p (file.read s.2 k), s.2 + k) := by
      rintro p k ⟨mem', q⟩ ⟨hq, hread, hrest⟩
      obtain rfl : q = pos + p := hq
      refine ⟨by omega, ?_, fun i hi => ?_⟩
      · have hself := Bytes.read_write_self mem' p (file.read (pos + p) k)
        rw [Bytes.length_read] at hself
        rw [Bytes.read_add, Bytes.read_add, Nat.zero_add, hself,
          Bytes.read_write_outside (Or.inl (by omega)), hread]
      · have hlen : p + (file.read (pos + p) k).length ≤ i := by
          rw [Bytes.length_read]
          exact hi
        exact (Bytes.write_of_ge hlen).trans (hrest i (by omega))
    obtain ⟨r, calls, ⟨mem', q⟩, hrun, hr, ⟨hq, hread, hrest⟩, hfailed⟩ :=
      transferLoop_within hI hfd underway_start (s := (mem, pos)) ⟨rfl, rfl, fun _ _ => rfl⟩
        (n + 1) (by omega)
    obtain rfl : q = pos + r := hq
    exact ⟨r, calls, mem', hrun, hr, hread, hrest, hfailed⟩

/-- Both functions move what they return exactly when no call moves more than what is missing;
each call asks for the whole buffer. -/
theorem streamFile_moves (fd : Descriptor) (n : ℕ) (buffer file : Bytes) (pos : ℕ) (mem : Bytes) :
    (fd.Sends n buffer ↔ fd.Within n) ∧ (fd.Stores n file pos mem ↔ fd.Within n) :=
  ⟨sends_iff buffer, stores_iff file pos mem⟩

/-- A call that moves one byte, and then calls that move all that they are asked for. -/
def shortFirst : Descriptor where
  move i c := if i = 0 then min 1 c else c
  bounded i c := by
    split_ifs
    · exact min_le_right _ _
    · exact le_rfl

/-- After a first byte the second call takes two more from a buffer of two, and a read puts them
there. -/
theorem streamFile_overruns : ¬ shortFirst.Sends 2 (fun _ => 0) ∧
    ¬ shortFirst.Stores 2 (fun _ => 0) 0 (fun _ => 0) := by
  have hwrite : streamFileWrite shortFirst 2 (fun _ => 0) = none := rfl
  have hread : streamFileRead shortFirst 2 (fun _ => 0) 0 (fun _ => 0) = none := rfl
  constructor
  · rintro ⟨r, calls, sent, hrun, -⟩
    rw [hwrite] at hrun
    cases hrun
  · rintro ⟨r, calls, mem', hrun, -⟩
    rw [hread] at hrun
    cases hrun

end Descriptor

end Carthage
