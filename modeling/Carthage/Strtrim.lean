import Carthage.Memmove
import Carthage.StrbufEdits
import Carthage.Strlen

/-!
# Trimming strings

`strnltrim` and `strnrtrim` look for spaces as string buffers do. `strnltrim` moves what is left to
the start of the string, and returns the length that the string had before.
-/

namespace Carthage.MmUtils

section Model

variable (w : Width) (mem : Bytes)

/-- The bytes `str[0]`, `str[1]`, … -/
def bytesFrom (str : ℕ) : Bytes := fun i => mem (str + i)

/-- The memory, and the result. -/
def strnltrim (str n : ℕ) : Bytes × ℕ :=
  let start := ltrimLoop (bytesFrom mem str) n (n + 1) 0
  if start > 0 then
    let mem := memmove w mem str (str + start) (n - start)
    (Function.update mem (str + (n - start)) 0, n)
  else (mem, n)

def strnrtrim (str n : ℕ) : Bytes × ℕ :=
  let n := rtrimLoop (bytesFrom mem str) n
  (Function.update mem (str + n) 0, n)

def strntrim (str n : ℕ) : Bytes × ℕ :=
  let (mem, n) := strnrtrim mem str n
  strnltrim w mem str n

variable (lo hi : ℕ)

/-- `strltrim`, `strrtrim` and `strtrim` return their argument. -/
def strltrim (str : ℕ) : Option Bytes := do
  return (strnltrim w mem str (← strlen8 mem lo hi str)).1

def strrtrim (str : ℕ) : Option Bytes := do
  return (strnrtrim mem str (← strlen8 mem lo hi str)).1

def strtrim (str : ℕ) : Option Bytes := do
  return (strntrim w mem str (← strlen8 mem lo hi str)).1

end Model

variable {w : Width} {mem : Bytes} {lo hi s : ℕ} {bs : List UInt8}

@[simp] theorem read_bytesFrom (mem : Bytes) (s off n : ℕ) :
    (bytesFrom mem s).read off n = mem.read (s + off) n := by
  simp [Bytes.read, bytesFrom, Nat.add_assoc]

theorem stringAt_update (hread : mem.read s bs.length = bs) (hne : (0 : UInt8) ∉ bs) :
    StringAt (Function.update mem (s + bs.length) 0) s bs := by
  refine ⟨?_, hne, Function.update_self _ _ _⟩
  rw [Bytes.read_update le_rfl, hread]

/-! ## The trims -/

theorem ltrimLoop_string (h : StringAt mem s bs) :
    ∃ start ≤ bs.length, ltrimLoop (bytesFrom mem s) bs.length (bs.length + 1) 0 = start ∧
      (bs.dropWhile isSpace).length = bs.length - start ∧
      mem.read (s + start) (bs.length - start) = bs.dropWhile isSpace := by
  obtain ⟨-, hle, hread⟩ := ltrimLoop_spec (bytesFrom mem s) (bs.length + 1)
    (Nat.zero_le bs.length) (by omega)
  rw [Nat.sub_zero, read_bytesFrom, read_bytesFrom, Nat.add_zero s, h.bytes] at hread
  exact ⟨_, hle, rfl, by rw [← hread, Bytes.length_read], hread⟩

theorem strnltrim_string (w : Width) (h : StringAt mem s bs) :
    StringAt (strnltrim w mem s bs.length).1 s (bs.dropWhile isSpace) ∧
      (strnltrim w mem s bs.length).2 = bs.length := by
  obtain ⟨start, hle, hstart, hlen, hread⟩ := ltrimLoop_string h
  unfold strnltrim
  rw [hstart]
  dsimp only
  split_ifs with hpos
  · refine ⟨?_, rfl⟩
    rw [← hlen, memmove, if_pos (by omega), memcpyForward_eq (Nat.le_add_right s start)]
    apply stringAt_update
    · rw [Bytes.read_copy_inside le_rfl le_rfl, Nat.sub_self, Nat.zero_add, hlen, hread]
    · exact fun hmem => h.nonzero ((List.dropWhile_sublist isSpace).subset hmem)
  · obtain rfl : start = 0 := by omega
    rw [Nat.add_zero s, Nat.sub_zero, h.bytes] at hread
    exact ⟨hread ▸ h, rfl⟩

theorem strnrtrim_string (h : StringAt mem s bs) :
    StringAt (strnrtrim mem s bs.length).1 s (bs.rdropWhile isSpace) ∧
      (strnrtrim mem s bs.length).2 = (bs.rdropWhile isSpace).length := by
  obtain ⟨-, hread⟩ := rtrimLoop_spec (bytesFrom mem s) bs.length
  rw [read_bytesFrom, read_bytesFrom, Nat.add_zero s, h.bytes] at hread
  have hlen : rtrimLoop (bytesFrom mem s) bs.length = (bs.rdropWhile isSpace).length := by
    rw [← hread, Bytes.length_read]
  rw [hlen] at hread
  unfold strnrtrim
  rw [hlen]
  refine ⟨stringAt_update hread fun hmem => h.nonzero ?_, rfl⟩
  exact (List.rdropWhile_prefix isSpace bs).subset hmem

theorem strntrim_string (w : Width) (h : StringAt mem s bs) :
    StringAt (strntrim w mem s bs.length).1 s ((bs.rdropWhile isSpace).dropWhile isSpace) ∧
      (strntrim w mem s bs.length).2 = (bs.rdropWhile isSpace).length := by
  obtain ⟨hright, hlen⟩ := strnrtrim_string h
  have hleft := strnltrim_string w hright
  rw [← hlen] at hleft
  exact ⟨hleft.1, hleft.2.trans hlen⟩

/-! ## Results -/

/-- A trim leaves a string in place and returns its length, and does nothing the second time. -/
structure Trims (trim : Bytes → ℕ → ℕ → Bytes × ℕ) (mem : Bytes) (s : ℕ) (bs kept : List UInt8) :
    Prop where
  string : StringAt (trim mem s bs.length).1 s kept
  length : (trim mem s bs.length).2 = kept.length
  again : trim (trim mem s bs.length).1 s (trim mem s bs.length).2 = trim mem s bs.length

theorem trims_of_string {trim : Bytes → ℕ → ℕ → Bytes × ℕ} {kept : List UInt8}
    (hstring : StringAt (trim mem s bs.length).1 s kept)
    (hlength : (trim mem s bs.length).2 = kept.length)
    (hself : ∀ mem', StringAt mem' s kept → trim mem' s kept.length = (mem', kept.length)) :
    Trims trim mem s bs kept := by
  refine ⟨hstring, hlength, ?_⟩
  rw [hlength, hself _ hstring, ← hlength]

theorem dropWhile_length_eq (bs : List UInt8) : (bs.dropWhile isSpace).length = bs.length ↔
    ∀ b ∈ bs.head?, isSpace b = false := by
  cases bs with
  | nil => simp
  | cons b bs =>
      have hle : (bs.dropWhile isSpace).length ≤ bs.length :=
        (List.dropWhile_sublist isSpace).length_le
      cases hb : isSpace b with
      | true =>
          rw [List.dropWhile_cons_of_pos hb, List.length_cons]
          refine iff_of_false (by omega) fun h => ?_
          exact Bool.true_eq_false_eq_False (hb.symm.trans (h b rfl))
      | false =>
          rw [List.dropWhile_cons_of_neg (by rw [hb]; exact Bool.false_ne_true)]
          refine iff_of_true rfl ?_
          rintro _ ⟨⟩
          exact hb

theorem strnltrim_self (w : Width) (h : StringAt mem s bs)
    (hhead : (bs.dropWhile isSpace).length = bs.length) :
    strnltrim w mem s bs.length = (mem, bs.length) := by
  obtain ⟨start, hle, hstart, hlen, -⟩ := ltrimLoop_string h
  obtain rfl : start = 0 := by omega
  unfold strnltrim
  rw [hstart]
  rfl

theorem strnrtrim_self (h : StringAt mem s bs) (hlast : bs.rdropWhile isSpace = bs) :
    strnrtrim mem s bs.length = (mem, bs.length) := by
  obtain ⟨-, hlen⟩ := strnrtrim_string h
  rw [hlast] at hlen
  unfold strnrtrim at hlen ⊢
  dsimp only at hlen ⊢
  rw [hlen, ← h.terminator, Function.update_eq_self]

theorem strntrim_self (w : Width) (h : StringAt mem s bs) (hlast : bs.rdropWhile isSpace = bs)
    (hhead : (bs.dropWhile isSpace).length = bs.length) :
    strntrim w mem s bs.length = (mem, bs.length) := by
  unfold strntrim
  rw [strnrtrim_self h hlast]
  exact strnltrim_self w h hhead

theorem head_rdropWhile (bs : List UInt8) :
    (∀ b ∈ (bs.rdropWhile isSpace).head?, isSpace b = false) ↔
      (∀ b ∈ bs.head?, isSpace b = false) ∨ ∀ b ∈ bs, isSpace b = true := by
  cases hkept : bs.rdropWhile isSpace with
  | nil =>
      refine iff_of_true (fun b hb => by cases hb) (Or.inr ?_)
      exact List.rdropWhile_eq_nil_iff.mp hkept
  | cons a rest =>
      obtain ⟨tail, htail⟩ := List.rdropWhile_prefix isSpace bs
      have hall : ¬ ∀ b ∈ bs, isSpace b = true := by
        intro h
        rw [List.rdropWhile_eq_nil_iff.mpr h] at hkept
        cases hkept
      rw [hkept] at htail
      rw [or_iff_left hall, ← htail]
      exact Iff.rfl

/-- The trims always leave the right string. `strnrtrim` returns its length, and the others do so
exactly for a string without leading spaces, `strntrim` also for one of spaces only. -/
theorem strntrim_trims_iff (w : Width) (h : StringAt mem s bs) :
    (StringAt (strnltrim w mem s bs.length).1 s (bs.dropWhile isSpace) ∧
      StringAt (strntrim w mem s bs.length).1 s ((bs.rdropWhile isSpace).dropWhile isSpace)) ∧
    Trims strnrtrim mem s bs (bs.rdropWhile isSpace) ∧
    (Trims (strnltrim w) mem s bs (bs.dropWhile isSpace) ↔
      ∀ b ∈ bs.head?, isSpace b = false) ∧
    (Trims (strntrim w) mem s bs ((bs.rdropWhile isSpace).dropWhile isSpace) ↔
      (∀ b ∈ bs.head?, isSpace b = false) ∨ ∀ b ∈ bs, isSpace b = true) := by
  obtain ⟨hleft, hleftLen⟩ := strnltrim_string w h
  obtain ⟨hright, hrightLen⟩ := strnrtrim_string h
  obtain ⟨hboth, hbothLen⟩ := strntrim_string w h
  refine ⟨⟨hleft, hboth⟩, ?_, ?_, ?_⟩
  · exact trims_of_string hright hrightLen fun mem' h' =>
      strnrtrim_self h' (List.rdropWhile_idempotent isSpace bs)
  · rw [← dropWhile_length_eq]
    constructor
    · intro htrims
      rw [← htrims.length, hleftLen]
    · intro hlen
      refine trims_of_string hleft (hleftLen.trans hlen.symm) fun mem' h' => ?_
      exact strnltrim_self w h' (by rw [List.dropWhile_idempotent])
  · rw [← head_rdropWhile, ← dropWhile_length_eq]
    constructor
    · intro htrims
      rw [← htrims.length, hbothLen]
    · intro hlen
      have hself : (bs.rdropWhile isSpace).dropWhile isSpace = bs.rdropWhile isSpace :=
        (List.dropWhile_suffix isSpace).eq_of_length hlen
      refine trims_of_string hboth (hbothLen.trans hlen.symm) fun mem' h' => ?_
      rw [hself] at h' ⊢
      exact strntrim_self w h' (List.rdropWhile_idempotent isSpace bs) hlen

theorem strntrim_trims_iff_two :
    (StringAt (strnltrim .b64 (fun i => [97, 32].getD i 0) 0 [97, 32].length).1 0
        ([97, 32].dropWhile isSpace) ∧
      StringAt (strntrim .b64 (fun i => [97, 32].getD i 0) 0 [97, 32].length).1 0
        (([97, 32].rdropWhile isSpace).dropWhile isSpace)) ∧
    Trims strnrtrim (fun i => [97, 32].getD i 0) 0 [97, 32] ([97, 32].rdropWhile isSpace) ∧
    (Trims (strnltrim .b64) (fun i => [97, 32].getD i 0) 0 [97, 32] ([97, 32].dropWhile isSpace) ↔
      ∀ b ∈ [97, 32].head?, isSpace b = false) ∧
    (Trims (strntrim .b64) (fun i => [97, 32].getD i 0) 0 [97, 32]
        (([97, 32].rdropWhile isSpace).dropWhile isSpace) ↔
      (∀ b ∈ [97, 32].head?, isSpace b = false) ∨ ∀ b ∈ [97, 32], isSpace b = true) := by
  have h : StringAt (fun i => [97, 32].getD i 0) 0 [97, 32] := ⟨by decide, by decide, by decide⟩
  exact strntrim_trims_iff .b64 h

/-- The string " a" is trimmed to "a", but the result is 2. -/
theorem strnltrim_length :
    (strnltrim .b64 (fun i => [32, 97].getD i 0) 0 2).1.read 0 2 = [97, 0] ∧
    (strnltrim .b64 (fun i => [32, 97].getD i 0) 0 2).2 = 2 ∧
    ¬ Trims (strnltrim .b64) (fun i => [32, 97].getD i 0) 0 [32, 97]
      ([32, 97].dropWhile isSpace) := by
  refine ⟨by decide, by decide, fun h => ?_⟩
  exact absurd h.length (by decide)

end Carthage.MmUtils
