import Carthage.Memcmp
import Carthage.StrbufOrder
import Carthage.Strlen

/-!
# Comparing strings

`strcmp` and `strncmp` compare as many bytes as the shorter string has, without its terminator.
-/

namespace Carthage.MmUtils

section Model

variable (e : Endian) (mem : Bytes) (lo hi : ℕ) (long : Width)

def strncmp (s1 s2 n : ℕ) : Option ℤ := do
  let l1 ← strlen8 mem lo hi s1
  let n := if l1 < n then l1 else n
  let l2 ← strlen8 mem lo hi s2
  let n := if l2 < n then l2 else n
  return memcmp e mem long s1 s2 n

def strcmp (s1 s2 : ℕ) : Option ℤ := do
  let l1 ← strlen8 mem lo hi s1
  let l2 ← strlen8 mem lo hi s2
  return memcmp e mem long s1 s2 (if l1 < l2 then l1 else l2)

end Model

variable {e : Endian} {mem : Bytes} {lo hi s t : ℕ} {long : Width} {xs ys : List UInt8}

theorem memcmp8_eq_list (mem : Bytes) (m1 m2 n : ℕ) :
    memcmp8 mem m1 m2 n = Carthage.memcmp (mem.read m1 n) (mem.read m2 n) := by
  induction n generalizing m1 m2 with
  | zero => rfl
  | succ n ih =>
      rw [Bytes.read_succ, Bytes.read_succ, memcmp8, Carthage.memcmp, ih]
      by_cases hbyte : mem m1 = mem m2
      · rw [if_neg (not_not.mpr hbyte), if_pos hbyte]
      · rw [if_pos hbyte, if_neg hbyte]

theorem memcmp_take_take (n : ℕ) :
    Carthage.memcmp (xs.take (min (min xs.length n) ys.length))
      (ys.take (min (min xs.length n) ys.length)) = Carthage.memcmp (xs.take n) (ys.take n) := by
  rw [← memcmp_take (xs.take n) (ys.take n), List.take_take, List.take_take]
  simp only [List.length_take]
  have hmin : min (min (min n xs.length) (min n ys.length)) n = min (min xs.length n) ys.length := by
    omega
  rw [hmin]

theorem memcmp_strings (e : Endian) (long : Width) (h : StringAt mem s xs) (h' : StringAt mem t ys)
    {n : ℕ} (hn : n ≤ xs.length) (hn' : n ≤ ys.length) :
    memcmp e mem long s t n = Carthage.memcmp (xs.take n) (ys.take n) := by
  rw [(memcmp_eq_memcmp8 e long mem s t n).1, memcmp8_eq_list, ← Bytes.read_take hn, h.bytes,
    ← Bytes.read_take hn', h'.bytes]

theorem strncmp_eq (e : Endian) (long : Width) (h : StringAt mem s xs) (h' : StringAt mem t ys)
    (hlo : lo ≤ s) (hhi : s + xs.length < hi) (hlo' : lo ≤ t) (hhi' : t + ys.length < hi) (n : ℕ) :
    strncmp e mem lo hi long s t n = some (Carthage.memcmp (xs.take n) (ys.take n)) := by
  have hmin : (if ys.length < (if xs.length < n then xs.length else n) then ys.length
      else if xs.length < n then xs.length else n) = min (min xs.length n) ys.length := by
    split_ifs <;> omega
  rw [strncmp, strlen8_eq h hlo hhi, strlen8_eq h' hlo' hhi']
  simp only [Option.bind_eq_bind, Option.bind_some, Option.pure_def]
  rw [hmin, memcmp_strings e long h h' (by omega) (by omega), memcmp_take_take]

theorem strcmp_eq (e : Endian) (long : Width) (h : StringAt mem s xs) (h' : StringAt mem t ys)
    (hlo : lo ≤ s) (hhi : s + xs.length < hi) (hlo' : lo ≤ t) (hhi' : t + ys.length < hi) :
    strcmp e mem lo hi long s t = some (Carthage.memcmp xs ys) := by
  have hmin : (if xs.length < ys.length then xs.length else ys.length) =
      min xs.length ys.length := by
    split_ifs <;> omega
  rw [strcmp, strlen8_eq h hlo hhi, strlen8_eq h' hlo' hhi']
  simp only [Option.bind_eq_bind, Option.bind_some, Option.pure_def]
  rw [hmin, memcmp_strings e long h h' (by omega) (by omega), memcmp_take]

/-- A string that may be read up to its terminator. -/
structure Readable (mem : Bytes) (lo hi s : ℕ) (xs : List UInt8) : Prop where
  string : StringAt mem s xs
  lower : lo ≤ s
  upper : s + xs.length < hi

/-- `strcmp` orders exactly the strings of which none is a proper beginning of another, `strncmp`
those of which no cut one is, and `strncmp` is `strcmp` on the cut strings. -/
theorem strcmp_orders_iff (e : Endian) (long : Width) {S : Set ℕ} {str : ℕ → List UInt8}
    (hS : ∀ s ∈ S, Readable mem lo hi s (str s)) :
    (LexOrders (strcmp e mem lo hi long) str S ↔
      ∀ s ∈ S, ∀ t ∈ S, str s <+: str t → str s = str t) ∧
    ∀ n,
      (LexOrders (fun s t => strncmp e mem lo hi long s t n) (fun s => (str s).take n) S ↔
        ∀ s ∈ S, ∀ t ∈ S, (str s).take n <+: (str t).take n →
          (str s).take n = (str t).take n) ∧
      ∀ s ∈ S, ∀ t ∈ S, ∀ mem' lo' hi' s' t', Readable mem' lo' hi' s' ((str s).take n) →
        Readable mem' lo' hi' t' ((str t).take n) →
        strncmp e mem lo hi long s t n = strcmp e mem' lo' hi' long s' t' := by
  refine ⟨lexOrders_iff fun s hs t ht => ?_, fun n => ⟨lexOrders_iff fun s hs t ht => ?_, ?_⟩⟩
  · obtain ⟨h, hlo, hhi⟩ := hS s hs
    obtain ⟨h', hlo', hhi'⟩ := hS t ht
    exact strcmp_eq e long h h' hlo hhi hlo' hhi'
  · obtain ⟨h, hlo, hhi⟩ := hS s hs
    obtain ⟨h', hlo', hhi'⟩ := hS t ht
    exact strncmp_eq e long h h' hlo hhi hlo' hhi' n
  · intro s hs t ht mem' lo' hi' s' t' hcut hcut'
    obtain ⟨h, hlo, hhi⟩ := hS s hs
    obtain ⟨h', hlo', hhi'⟩ := hS t ht
    rw [strncmp_eq e long h h' hlo hhi hlo' hhi' n, strcmp_eq e long hcut.string hcut'.string
      hcut.lower hcut.upper hcut'.lower hcut'.upper]

/-- The strings "ab" from 0 on and "b" from 1 on. -/
theorem strcmp_orders_iff_two :
    (LexOrders (strcmp .little (fun i => [97, 98].getD i 0) 0 3 .b64) (fun i => [97, 98].drop i)
        {0, 1} ↔
      ∀ s ∈ ({0, 1} : Set ℕ), ∀ t ∈ ({0, 1} : Set ℕ),
        ([97, 98] : List UInt8).drop s <+: [97, 98].drop t →
          ([97, 98] : List UInt8).drop s = [97, 98].drop t) ∧
    ∀ n,
      (LexOrders (fun s t => strncmp .little (fun i => [97, 98].getD i 0) 0 3 .b64 s t n)
          (fun s => ([97, 98].drop s).take n) {0, 1} ↔
        ∀ s ∈ ({0, 1} : Set ℕ), ∀ t ∈ ({0, 1} : Set ℕ),
          (([97, 98] : List UInt8).drop s).take n <+: ([97, 98].drop t).take n →
            (([97, 98] : List UInt8).drop s).take n = ([97, 98].drop t).take n) ∧
      ∀ s ∈ ({0, 1} : Set ℕ), ∀ t ∈ ({0, 1} : Set ℕ), ∀ mem' lo' hi' s' t',
        Readable mem' lo' hi' s' (([97, 98].drop s).take n) →
        Readable mem' lo' hi' t' (([97, 98].drop t).take n) →
        strncmp .little (fun i => [97, 98].getD i 0) 0 3 .b64 s t n =
          strcmp .little mem' lo' hi' .b64 s' t' := by
  apply strcmp_orders_iff
  rintro s (rfl | rfl)
  · exact ⟨⟨by decide, by decide, by decide⟩, by decide, by decide⟩
  · exact ⟨⟨by decide, by decide, by decide⟩, by decide, by decide⟩

/-- The empty string from 1 on compares as equal to "a" from 0 on. -/
theorem strcmp_begins :
    strcmp .little (fun i => [97].getD i 0) 0 2 .b64 1 0 = some 0 ∧
    ¬ LexOrders (strcmp .little (fun i => [97].getD i 0) 0 2 .b64) (fun i => [97].drop i)
      {0, 1} := by
  have hzero : strcmp .little (fun i => [97].getD i 0) 0 2 .b64 1 0 = some 0 := by decide
  refine ⟨hzero, fun h => ?_⟩
  obtain ⟨c, hc, -, heq⟩ := h.total 1 (Or.inr rfl) 0 (Or.inl rfl)
  obtain rfl := Option.some.inj (hzero.symm.trans hc)
  exact absurd (heq.mp rfl) (by decide)

end Carthage.MmUtils
