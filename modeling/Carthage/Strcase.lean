import Carthage.Strcmp

/-!
# Comparing strings without their case

`strcasecmp` and `strncasecmp` go through two strings up to their terminators, which count, so
that they order all strings; `strlower` and `strupper` make strings equal that compare as equal.
Letters are those of ASCII.
-/

namespace Carthage.MmUtils

def isUpper (c : UInt8) : Bool := 65 ≤ c && c ≤ 90

def isLower (c : UInt8) : Bool := 97 ≤ c && c ≤ 122

def isAlpha (c : UInt8) : Bool := isUpper c || isLower c

/-- `__tolower`. -/
def toLower (c : UInt8) : UInt8 := if !isAlpha c || isLower c then c else c - 65 + 97

/-- `__toupper`. -/
def toUpper (c : UInt8) : UInt8 := if !isAlpha c || isUpper c then c else c - 97 + 65

section Model

variable (mem : Bytes) (lo hi : ℕ)

/-- The loop of the two comparisons, and what comes of it when it is not left before its end. -/
def casecmpLoop (last : Option ℤ) : ℕ → ℕ → ℕ → Option ℤ
  | 0, _, _ => last
  | n + 1, s1, s2 => do
      let c1 := toLower (← readByte mem lo hi s1)
      let c2 := toLower (← readByte mem lo hi s2)
      if c1 ≠ c2 then return (c1.toNat : ℤ) - c2.toNat
      if c1 = 0 then return 0
      casecmpLoop last n (s1 + 1) (s2 + 1)

def strncasecmp (s1 s2 n : ℕ) : Option ℤ := casecmpLoop mem lo hi (some 0) n s1 s2

/-- A loop that goes on for `hi` bytes has left the memory. -/
def strcasecmp (s1 s2 : ℕ) : Option ℤ := casecmpLoop mem lo hi none (hi + 1) s1 s2

/-- The loop of `strlower` and of `strupper`; characters are signed there, and a negative one may
not be passed to `isalpha`. -/
def recaseLoop (f : UInt8 → UInt8) : ℕ → Bytes → ℕ → Option Bytes
  | 0, _, _ => none
  | fuel + 1, mem, p => do
      let c ← readByte mem lo hi p
      if c = 0 then return mem
      if c < 128 then recaseLoop f fuel (Function.update mem p (f c)) (p + 1) else none

def strlower (str : ℕ) : Option Bytes := recaseLoop lo hi toLower (hi + 1) mem str

def strupper (str : ℕ) : Option Bytes := recaseLoop lo hi toUpper (hi + 1) mem str

end Model

/-! ## Letters -/

theorem forall_char {P : UInt8 → Prop} (h : ∀ i : Fin 256, P (UInt8.ofFin i)) (c : UInt8) : P c :=
  h c.toFin

theorem toLower_eq_zero (c : UInt8) : toLower c = 0 ↔ c = 0 := by
  apply forall_char (P := fun c => toLower c = 0 ↔ c = 0)
  decide +kernel

theorem toUpper_eq_zero (c : UInt8) : toUpper c = 0 ↔ c = 0 := by
  apply forall_char (P := fun c => toUpper c = 0 ↔ c = 0)
  decide +kernel

theorem toLower_toUpper (c : UInt8) : toLower (toUpper c) = toLower c := by
  apply forall_char (P := fun c => toLower (toUpper c) = toLower c)
  decide +kernel

theorem toUpper_toLower (c : UInt8) : toUpper (toLower c) = toUpper c := by
  apply forall_char (P := fun c => toUpper (toLower c) = toUpper c)
  decide +kernel

theorem map_toUpper_eq_iff {xs ys : List UInt8} :
    xs.map toUpper = ys.map toUpper ↔ xs.map toLower = ys.map toLower := by
  have hlow : ∀ zs : List UInt8, (zs.map toUpper).map toLower = zs.map toLower := fun zs => by
    rw [List.map_map]
    exact List.map_congr_left fun c _ => toLower_toUpper c
  have hup : ∀ zs : List UInt8, (zs.map toLower).map toUpper = zs.map toUpper := fun zs => by
    rw [List.map_map]
    exact List.map_congr_left fun c _ => toUpper_toLower c
  constructor
  · intro h
    rw [← hlow xs, h, hlow ys]
  · intro h
    rw [← hup xs, h, hup ys]

/-! ## Strings with their terminators -/

/-- A string in lower case, and its terminator. -/
def lowered (xs : List UInt8) : List UInt8 := xs.map toLower ++ [0]

variable {mem : Bytes} {lo hi s t n : ℕ} {xs ys : List UInt8}

theorem lowered_nonzero (h : (0 : UInt8) ∉ xs) : (0 : UInt8) ∉ xs.map toLower := fun hmem => by
  obtain ⟨c, hc, hzero⟩ := List.mem_map.mp hmem
  rw [toLower_eq_zero] at hzero
  exact h (hzero ▸ hc)

theorem lowered_inj :
    lowered xs = lowered ys ↔ xs.map toLower = ys.map toLower :=
  ⟨fun h => (List.append_inj' h rfl).1, fun h => by rw [lowered, h, lowered]⟩

theorem eq_of_begins {A B : List UInt8} (hB : (0 : UInt8) ∉ B) (h : A ++ [0] <+: B ++ [0]) :
    A ++ [0] = B ++ [0] := by
  obtain ⟨C, hC⟩ := h
  rcases List.eq_nil_or_concat C with rfl | ⟨C, c, rfl⟩
  · rw [← hC, List.append_nil]
  · rw [List.concat_eq_append, ← List.append_assoc] at hC
    have hmem : (0 : UInt8) ∈ A ++ [0] ++ C := by simp
    rw [(List.append_inj' hC rfl).1] at hmem
    exact absurd hmem hB

theorem take_eq_of_begins {A B : List UInt8} (hB : (0 : UInt8) ∉ B)
    (h : (A ++ [0]).take n <+: (B ++ [0]).take n) : (A ++ [0]).take n = (B ++ [0]).take n := by
  rcases Nat.lt_or_ge (A ++ [(0 : UInt8)]).length n with hlt | hge
  · rw [List.take_of_length_le hlt.le] at h ⊢
    have hall := eq_of_begins hB (h.trans (List.take_prefix n _))
    rw [hall, List.take_of_length_le (by rw [← hall]; exact hlt.le)]
  · refine h.eq_of_length ?_
    have hle := h.length_le
    rw [List.length_take, Nat.min_eq_left hge] at hle ⊢
    have := List.length_take_le n (B ++ [(0 : UInt8)])
    omega

theorem StringAt.head {x : UInt8} (h : StringAt mem s (x :: xs)) :
    mem s = x ∧ StringAt mem (s + 1) xs :=
  ⟨h.getElem (i := 0) (Nat.succ_pos _), h.drop (k := 1) (Nat.succ_pos _)⟩

/-- The loop compares the first `n` bytes, with the terminators. -/
theorem casecmpLoop_eq {last : Option ℤ} (hlast : last = some 0 ∨ xs.length < n)
    (h : StringAt mem s xs) (h' : StringAt mem t ys) (hlo : lo ≤ s) (hhi : s + xs.length < hi)
    (hlo' : lo ≤ t) (hhi' : t + ys.length < hi) : casecmpLoop mem lo hi last n s t =
      some (Carthage.memcmp ((lowered xs).take n) ((lowered ys).take n)) := by
  induction n generalizing s t xs ys with
  | zero => exact hlast.resolve_right (Nat.not_lt_zero _)
  | succ n ih =>
      have hend : ∀ {p : ℕ}, StringAt mem p [] → mem p = 0 := fun h => h.terminator
      rw [casecmpLoop, readByte_eq hlo (by omega), readByte_eq hlo' (by omega)]
      simp only [Option.bind_eq_bind, Option.bind_some, Option.pure_def]
      cases xs with
      | nil =>
          cases ys with
          | nil =>
              rw [hend h, hend h']
              simp [lowered, Carthage.memcmp, (toLower_eq_zero 0).mpr rfl]
          | cons y ys =>
              obtain ⟨hy, -⟩ := h'.head
              have hne : toLower y ≠ 0 := fun hz => h'.nonzero (by
                rw [(toLower_eq_zero _).mp hz]
                exact List.mem_cons_self)
              rw [hend h, hy]
              simp [lowered, Carthage.memcmp, (toLower_eq_zero 0).mpr rfl, hne.symm]
      | cons x xs =>
          obtain ⟨hx, hxs⟩ := h.head
          have hne : toLower x ≠ 0 := fun hz => h.nonzero (by
            rw [(toLower_eq_zero _).mp hz]
            exact List.mem_cons_self)
          rw [List.length_cons] at hhi hlast
          cases ys with
          | nil =>
              rw [hx, hend h']
              simp [lowered, Carthage.memcmp, (toLower_eq_zero 0).mpr rfl, hne]
          | cons y ys =>
              obtain ⟨hy, hys⟩ := h'.head
              rw [List.length_cons] at hhi'
              rw [hx, hy]
              by_cases hxy : toLower x = toLower y
              · rw [if_neg (not_not.mpr hxy), if_neg hne,
                  ih (hlast.imp_right Nat.lt_of_succ_lt_succ) hxs hys (by omega) (by omega)
                    (by omega) (by omega)]
                simp [lowered, Carthage.memcmp, hxy]
              · rw [if_pos hxy]
                simp [lowered, Carthage.memcmp, hxy]

theorem strncasecmp_eq (h : Readable mem lo hi s xs) (h' : Readable mem lo hi t ys) (n : ℕ) :
    strncasecmp mem lo hi s t n =
      some (Carthage.memcmp ((lowered xs).take n) ((lowered ys).take n)) :=
  casecmpLoop_eq (Or.inl rfl) h.string h'.string h.lower h.upper h'.lower h'.upper

theorem strcasecmp_eq (h : Readable mem lo hi s xs) (h' : Readable mem lo hi t ys) :
    strcasecmp mem lo hi s t = some (Carthage.memcmp (lowered xs) (lowered ys)) := by
  have hx := h.upper
  have hy := h'.upper
  have hall : ∀ zs : List UInt8, zs.length < hi → (lowered zs).take (hi + 1) = lowered zs :=
    fun zs hz => List.take_of_length_le (by
      rw [lowered, List.length_append, List.length_map, List.length_singleton]
      omega)
  rw [strcasecmp, casecmpLoop_eq (Or.inr (by omega)) h.string h'.string h.lower h.upper h'.lower
    h'.upper, hall xs (by omega), hall ys (by omega)]

/-! ## Changing the case -/

theorem recaseLoop_spec {f : UInt8 → UInt8} {fuel : ℕ} (hf : ∀ c, f c = 0 ↔ c = 0)
    (h : StringAt mem s xs) (hlo : lo ≤ s) (hhi : s + xs.length < hi) (hfuel : xs.length < fuel)
    (hascii : ∀ c ∈ xs, c < 128) :
    ∃ mem', recaseLoop lo hi f fuel mem s = some mem' ∧ StringAt mem' s (xs.map f) ∧
      ∀ i, i < s ∨ s + xs.length ≤ i → mem' i = mem i := by
  induction fuel generalizing mem s xs with
  | zero => omega
  | succ fuel ih =>
      rw [recaseLoop, readByte_eq hlo (by omega)]
      simp only [Option.bind_eq_bind, Option.bind_some, Option.pure_def]
      cases xs with
      | nil =>
          have hend : mem s = 0 := h.terminator
          rw [if_pos hend]
          exact ⟨mem, rfl, h, fun _ _ => rfl⟩
      | cons x xs =>
          obtain ⟨hx, hxs⟩ := h.head
          rw [List.length_cons] at hhi hfuel
          have hne : x ≠ 0 := fun hz => h.nonzero (hz ▸ List.mem_cons_self)
          have hother : ∀ i, i ≠ s → Function.update mem s (f x) i = mem i :=
            fun i hi => Function.update_of_ne hi _ _
          have hrest : StringAt (Function.update mem s (f x)) (s + 1) xs := by
            refine ⟨?_, hxs.nonzero, ?_⟩
            · exact (Bytes.read_congr fun i _ => hother _ (by omega)).trans hxs.bytes
            · rw [hother _ (by omega)]
              exact hxs.terminator
          obtain ⟨mem', hrun, hstring, houtside⟩ := ih hrest (by omega) (by omega) (by omega)
            fun c hc => hascii c (List.mem_cons_of_mem x hc)
          rw [hx, if_neg hne, if_pos (hascii x List.mem_cons_self)]
          have hfirst : mem' s = f x := by
            rw [houtside s (Or.inl (Nat.lt_succ_self s)), Function.update_self]
          refine ⟨mem', hrun, ⟨?_, ?_, ?_⟩, fun i hi => ?_⟩
          · rw [List.map_cons, List.length_cons, Bytes.read_succ, hfirst, hstring.bytes]
          · rw [List.map_cons, List.mem_cons, not_or]
            exact ⟨fun hz => hne ((hf x).mp hz.symm), hstring.nonzero⟩
          · rw [List.map_cons, List.length_cons, Nat.add_comm _ 1, ← Nat.add_assoc]
            exact hstring.terminator
          · rw [List.length_cons] at hi
            rw [houtside i (by omega), hother i (by omega)]

/-- `strcasecmp` and `strncasecmp` are lexicographic orders of the strings in lower case with their
terminators, and strings compare as equal exactly when `strlower`, or `strupper`, makes them the
same. -/
theorem strcasecmp_orders {S : Set ℕ} {str : ℕ → List UInt8}
    (hS : ∀ s ∈ S, Readable mem lo hi s (str s)) :
    LexOrders (strcasecmp mem lo hi) (fun s => lowered (str s)) S ∧
    (∀ n, LexOrders (fun s t => strncasecmp mem lo hi s t n)
      (fun s => (lowered (str s)).take n) S) ∧
    ∀ s ∈ S, ∀ t ∈ S, (∀ c ∈ str s ++ str t, c < 128) → ∃ m₁ m₂ m₃ m₄,
      strlower mem lo hi s = some m₁ ∧ strlower mem lo hi t = some m₂ ∧
      strupper mem lo hi s = some m₃ ∧ strupper mem lo hi t = some m₄ ∧
      (strcasecmp mem lo hi s t = some 0 ↔
        m₁.read s (str s).length = m₂.read t (str t).length) ∧
      (strcasecmp mem lo hi s t = some 0 ↔
        m₃.read s (str s).length = m₄.read t (str t).length) := by
  have hnonzero : ∀ s ∈ S, (0 : UInt8) ∉ (str s).map toLower := fun s hs =>
    lowered_nonzero (hS s hs).string.nonzero
  refine ⟨?_, fun n => ?_, fun s hs t ht hascii => ?_⟩
  · rw [lexOrders_iff fun s hs t ht => strcasecmp_eq (hS s hs) (hS t ht)]
    exact fun s _ t ht hp => eq_of_begins (hnonzero t ht) hp
  · rw [lexOrders_iff fun s hs t ht => strncasecmp_eq (hS s hs) (hS t ht) n]
    exact fun s _ t ht hp => take_eq_of_begins (hnonzero t ht) hp
  · obtain ⟨h, hlo, hhi⟩ := hS s hs
    obtain ⟨h', hlo', hhi'⟩ := hS t ht
    have hs' : ∀ c ∈ str s, c < 128 := fun c hc => hascii c (List.mem_append_left _ hc)
    have ht' : ∀ c ∈ str t, c < 128 := fun c hc => hascii c (List.mem_append_right _ hc)
    obtain ⟨m₁, hrun₁, hm₁, -⟩ :=
      recaseLoop_spec toLower_eq_zero h hlo hhi (by omega : _ < hi + 1) hs'
    obtain ⟨m₂, hrun₂, hm₂, -⟩ :=
      recaseLoop_spec toLower_eq_zero h' hlo' hhi' (by omega : _ < hi + 1) ht'
    obtain ⟨m₃, hrun₃, hm₃, -⟩ :=
      recaseLoop_spec toUpper_eq_zero h hlo hhi (by omega : _ < hi + 1) hs'
    obtain ⟨m₄, hrun₄, hm₄, -⟩ :=
      recaseLoop_spec toUpper_eq_zero h' hlo' hhi' (by omega : _ < hi + 1) ht'
    have hread : ∀ {m : Bytes} {p : ℕ} {f : UInt8 → UInt8} {zs : List UInt8},
        StringAt m p (zs.map f) → m.read p zs.length = zs.map f := fun hm => by
      have hbytes := hm.bytes
      rwa [List.length_map] at hbytes
    have hzero : strcasecmp mem lo hi s t = some 0 ↔
        (str s).map toLower = (str t).map toLower := by
      rw [strcasecmp_eq (hS s hs) (hS t ht), Option.some.injEq, memcmp_eq_zero,
        ← lowered_inj]
      constructor
      · rintro (hp | hp)
        · exact eq_of_begins (hnonzero t ht) hp
        · exact (eq_of_begins (hnonzero s hs) hp).symm
      · exact fun heq => Or.inl (heq ▸ List.prefix_rfl)
    refine ⟨m₁, m₂, m₃, m₄, hrun₁, hrun₂, hrun₃, hrun₄, ?_, ?_⟩
    · rw [hzero, hread hm₁, hread hm₂]
    · rw [hzero, hread hm₃, hread hm₄, map_toUpper_eq_iff]

/-- "aB" from 0 on and "Ab" from 3 on. -/
def mixedCase : Bytes := fun i => [97, 66, 0, 65, 98, 0].getD i 0

def mixedString (s : ℕ) : List UInt8 := if s = 0 then [97, 66] else [65, 98]

theorem strcasecmp_orders_two :
    LexOrders (strcasecmp mixedCase 0 6) (fun s => lowered (mixedString s)) {0, 3} ∧
    (∀ n, LexOrders (fun s t => strncasecmp mixedCase 0 6 s t n)
      (fun s => (lowered (mixedString s)).take n) {0, 3}) ∧
    ∀ s ∈ ({0, 3} : Set ℕ), ∀ t ∈ ({0, 3} : Set ℕ),
      (∀ c ∈ mixedString s ++ mixedString t, c < 128) → ∃ m₁ m₂ m₃ m₄,
      strlower mixedCase 0 6 s = some m₁ ∧ strlower mixedCase 0 6 t = some m₂ ∧
      strupper mixedCase 0 6 s = some m₃ ∧ strupper mixedCase 0 6 t = some m₄ ∧
      (strcasecmp mixedCase 0 6 s t = some 0 ↔
        m₁.read s (mixedString s).length = m₂.read t (mixedString t).length) ∧
      (strcasecmp mixedCase 0 6 s t = some 0 ↔
        m₃.read s (mixedString s).length = m₄.read t (mixedString t).length) := by
  apply strcasecmp_orders
  rintro s (rfl | rfl)
  · exact ⟨⟨by decide, by decide, by decide⟩, by decide, by decide⟩
  · exact ⟨⟨by decide, by decide, by decide⟩, by decide, by decide⟩

end Carthage.MmUtils
