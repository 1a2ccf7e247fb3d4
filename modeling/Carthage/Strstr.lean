import Carthage.Memmem
import Carthage.Strlen

/-!
# Searching strings for strings

`strstr`, `strrstr`, `strpos` and `strrpos` search memory with the lengths of the strings; `strlen`
is the C library's, or does what it does. The position too far that `memmem` tries has the
terminator of the haystack where the needle has its last byte.
-/

namespace Carthage.MmUtils

section Model

variable (e : Endian) (mem : Bytes) (lo hi : ℕ) (long : Width)

def strstr (haystack needle : ℕ) : Option (Option ℕ) := do
  memmem e mem lo hi long haystack (← strlen8 mem lo hi haystack) needle
    (← strlen8 mem lo hi needle)

def strrstr (haystack needle : ℕ) : Option (Option ℕ) := do
  memrmem e mem lo hi long haystack (← strlen8 mem lo hi haystack) needle
    (← strlen8 mem lo hi needle)

def indexIn (haystack : ℕ) : Option ℕ → ℤ
  | some p => p - haystack
  | none => -1

def strpos (haystack needle : ℕ) : Option ℤ := do
  let p ← memmem e mem lo hi long haystack (← strlen8 mem lo hi haystack) needle
    (← strlen8 mem lo hi needle)
  return indexIn haystack p

def strrpos (haystack needle : ℕ) : Option ℤ := do
  let p ← memrmem e mem lo hi long haystack (← strlen8 mem lo hi haystack) needle
    (← strlen8 mem lo hi needle)
  return indexIn haystack p

end Model

variable {mem : Bytes} {lo hi s nd i : ℕ} {hs ns : List UInt8} {first last : Option ℕ}

/-- The least index at which the needle is in the haystack. -/
def FirstIndex (hs ns : List UInt8) (first : Option ℕ) : Prop :=
  (∃ i, first = some i ∧ ns <+: hs.drop i ∧ ∀ j < i, ¬ ns <+: hs.drop j) ∨
    (first = none ∧ ∀ i, ¬ ns <+: hs.drop i)

def LastIndex (hs ns : List UInt8) (last : Option ℕ) : Prop :=
  (∃ i, last = some i ∧ ns <+: hs.drop i ∧ ∀ j, i < j → ¬ ns <+: hs.drop j) ∨
    (last = none ∧ ∀ i, ¬ ns <+: hs.drop i)

theorem occurs_iff (h : StringAt mem s hs) (hn : StringAt mem nd ns)
    (hi : i + ns.length ≤ hs.length) :
    Occurs mem nd ns.length (s + i) ↔ ns <+: hs.drop i := by
  have hdrop : mem.read (s + i) (hs.length - i) = hs.drop i := by
    rw [← Bytes.read_drop, h.bytes]
  have hread : mem.read (s + i) ns.length = (hs.drop i).take ns.length := by
    rw [← hdrop, Bytes.read_take (by omega)]
  rw [Occurs, hn.bytes, hread, List.prefix_iff_eq_take]
  exact eq_comm

theorem drop_prefix_le (hne : ns ≠ []) (h : ns <+: hs.drop i) : i + ns.length ≤ hs.length := by
  have hlen := h.length_le
  have hpos := List.length_pos_of_ne_nil hne
  rw [List.length_drop] at hlen
  omega

theorem not_occurs_end (h : StringAt mem s hs) (hn : StringAt mem nd ns) (hne : ns ≠ [])
    (hle : ns.length ≤ hs.length) : ¬ Occurs mem nd ns.length (s + (hs.length - ns.length + 1)) := by
  intro hocc
  have hpos := List.length_pos_of_ne_nil hne
  have hbyte := Bytes.read_eq_iff.mp hocc (ns.length - 1) (by omega)
  have hlast : mem (s + (hs.length - ns.length + 1) + (ns.length - 1)) = mem (s + hs.length) := by
    congr 1
    omega
  refine hn.ne_zero (i := ns.length - 1) (by omega) ?_
  rw [← hbyte, hlast, h.terminator]

theorem memmem_string (e : Endian) (long : Width) (h : StringAt mem s hs) (hn : StringAt mem nd ns)
    (hne : ns ≠ []) (hlo : lo ≤ s) (hhi : s + hs.length < hi) :
    ∃ r, memmem e mem lo hi long s hs.length nd ns.length = some r ∧
      FirstOccurrence mem s hs.length nd ns.length r := by
  have hend := not_occurs_end h hn hne
  have hpos := List.length_pos_of_ne_nil hne
  obtain ⟨m, hm⟩ : ∃ m, ns.length = m + 1 := ⟨ns.length - 1, by omega⟩
  rw [hm] at hend ⊢
  rcases Nat.lt_or_ge hs.length (m + 1) with hlt | hge
  · exact ⟨none, if_pos (Or.inl hlt), Or.inr ⟨rfl, fun i hi => by omega⟩⟩
  · by_cases hany : ∃ i, i + (m + 1) ≤ hs.length ∧ Occurs mem nd (m + 1) (s + i)
    · exact memmem_present e long hlo hhi.le hany
    · have hnone : ∀ i, i + (m + 1) ≤ hs.length → ¬ Occurs mem nd (m + 1) (s + i) :=
        fun i hi hocc => hany ⟨i, hi, hocc⟩
      have hpast : s + (hs.length - (m + 1) + 1) = s + (hs.length - m) := by omega
      have hfalse := hend hge
      rw [hpast] at hfalse
      refine ⟨none, ?_, Or.inr ⟨rfl, hnone⟩⟩
      rw [memmem_absent e long hlo hhi.le hge hnone, memmemLoop,
        memmemAt_eq e long (by omega) (by omega), decide_eq_false hfalse]
      rfl

/-- `strpos` and `strstr` find the first occurrence of a needle in a string, and `strrpos` and
`strrstr` the last one. -/
theorem strstr_spec (e : Endian) (long : Width) (h : StringAt mem s hs) (hn : StringAt mem nd ns)
    (hne : ns ≠ []) (hlo : lo ≤ s) (hhi : s + hs.length < hi) (hlo' : lo ≤ nd)
    (hhi' : nd + ns.length < hi) :
    ∃ first last, FirstIndex hs ns first ∧ LastIndex hs ns last ∧
      strpos e mem lo hi long s nd = some (first.elim (-1) fun i => (i : ℤ)) ∧
      strrpos e mem lo hi long s nd = some (last.elim (-1) fun i => (i : ℤ)) ∧
      strstr e mem lo hi long s nd = some (first.map (s + ·)) ∧
      strrstr e mem lo hi long s nd = some (last.map (s + ·)) := by
  have hlen := strlen8_eq h hlo hhi
  have hlen' := strlen8_eq hn hlo' hhi'
  have hpos := List.length_pos_of_ne_nil hne
  have hiff : ∀ i, (i + ns.length ≤ hs.length ∧ Occurs mem nd ns.length (s + i)) ↔
      ns <+: hs.drop i := fun i =>
    ⟨fun hi => (occurs_iff h hn hi.1).mp hi.2, fun hi =>
      ⟨drop_prefix_le hne hi, (occurs_iff h hn (drop_prefix_le hne hi)).mpr hi⟩⟩
  obtain ⟨r, hrun, hr⟩ := memmem_string e long h hn hne hlo hhi
  obtain ⟨r', hrun', hr'⟩ := memrmem_last e mem long nd hlo hhi.le hpos
  have hfirst : ∃ first, FirstIndex hs ns first ∧ r = first.map (s + ·) := by
    rcases hr with ⟨i, hi, rfl, hocc, hmin⟩ | ⟨rfl, hnone⟩
    · refine ⟨some i, Or.inl ⟨i, rfl, (hiff i).mp ⟨hi, hocc⟩, fun j hj hj' => ?_⟩, rfl⟩
      exact hmin j hj ((hiff j).mpr hj').2
    · refine ⟨none, Or.inr ⟨rfl, fun i hi => ?_⟩, rfl⟩
      exact hnone i ((hiff i).mpr hi).1 ((hiff i).mpr hi).2
  have hlast : ∃ last, LastIndex hs ns last ∧ r' = last.map (s + ·) := by
    rcases hr' with ⟨i, hi, rfl, hocc, hmax⟩ | ⟨rfl, hnone⟩
    · refine ⟨some i, Or.inl ⟨i, rfl, (hiff i).mp ⟨hi, hocc⟩, fun j hj hj' => ?_⟩, rfl⟩
      exact hmax j ((hiff j).mpr hj').1 hj ((hiff j).mpr hj').2
    · refine ⟨none, Or.inr ⟨rfl, fun i hi => ?_⟩, rfl⟩
      exact hnone i ((hiff i).mpr hi).1 ((hiff i).mpr hi).2
  have hindex : ∀ o : Option ℕ, indexIn s (o.map (s + ·)) = o.elim (-1) fun i => (i : ℤ) := by
    rintro (_ | i)
    · rfl
    · change ((s + i : ℕ) : ℤ) - s = i
      omega
  obtain ⟨first, hfirst, rfl⟩ := hfirst
  obtain ⟨last, hlast, rfl⟩ := hlast
  refine ⟨first, last, hfirst, hlast, ?_, ?_, ?_, ?_⟩
  · rw [← hindex first]
    simp only [strpos, hlen, hlen', hrun, Option.bind_eq_bind, Option.bind_some, Option.pure_def]
  · rw [← hindex last]
    simp only [strrpos, hlen, hlen', hrun', Option.bind_eq_bind, Option.bind_some,
      Option.pure_def]
  · simp only [strstr, hlen, hlen', hrun, Option.bind_eq_bind, Option.bind_some]
  · simp only [strrstr, hlen, hlen', hrun', Option.bind_eq_bind, Option.bind_some]

/-- The string "ab" from 0 on, and "b" from 1 on. -/
theorem strstr_spec_two : ∃ first last, FirstIndex [97, 98] [98] first ∧
    LastIndex [97, 98] [98] last ∧
    strpos .little (fun i => [97, 98].getD i 0) 0 3 .b64 0 1 =
      some (first.elim (-1) fun i => (i : ℤ)) ∧
    strrpos .little (fun i => [97, 98].getD i 0) 0 3 .b64 0 1 =
      some (last.elim (-1) fun i => (i : ℤ)) ∧
    strstr .little (fun i => [97, 98].getD i 0) 0 3 .b64 0 1 = some (first.map (0 + ·)) ∧
    strrstr .little (fun i => [97, 98].getD i 0) 0 3 .b64 0 1 = some (last.map (0 + ·)) :=
  strstr_spec .little .b64 ⟨by decide, by decide, by decide⟩ ⟨by decide, by decide, by decide⟩
    (by decide) le_rfl (by decide) (Nat.zero_le 1) (by decide)

end Carthage.MmUtils
