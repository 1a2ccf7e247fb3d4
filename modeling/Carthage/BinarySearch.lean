import Mathlib.Order.Defs.LinearOrder
import Mathlib.Data.List.Sort
import Mathlib.Tactic

/-!
# Binary search

`__index_search`, over any linear order. The result is whether the key was found, and
its index or the index where it belongs. A result `none` is a comparison outside the
array, or a search that does not end. At the end the search is made in memory, with a
comparison function.
-/

namespace Carthage

section Order

variable {K : Type} [LinearOrder K] {keys : List K} {key : K}

def indexSearchLoop (keys : List K) (key : K) : ℕ → ℤ → ℤ → Option (Bool × ℕ)
  | 0, _, _ => none
  | fuel + 1, low, high =>
      if low ≤ high then do
        let i := (low + high) / 2
        let mid ← keys[i.toNat]?
        if mid = key then return (true, i.toNat)
        else if mid < key then indexSearchLoop keys key fuel (i + 1) high
        else indexSearchLoop keys key fuel low (i - 1)
      else return (false, low.toNat)

def indexSearch (keys : List K) (key : K) : Option (Bool × ℕ) :=
  indexSearchLoop keys key (keys.length + 1) 0 (keys.length - 1)

def rank (keys : List K) (key : K) : ℕ := keys.countP (· < key)

theorem rank_split {pre post : List K} (hpre : ∀ x ∈ pre, x < key) (hpost : ∀ x ∈ post, key ≤ x) :
    rank (pre ++ post) key = pre.length := by
  have h1 : pre.countP (· < key) = pre.length :=
    List.countP_eq_length.mpr fun x hx => decide_eq_true (hpre x hx)
  have h2 : post.countP (· < key) = 0 :=
    List.countP_eq_zero.mpr fun x hx => by simpa using hpost x hx
  rw [rank, List.countP_append, h1, h2, Nat.add_zero]

theorem indexSearchLoop_total {fuel : ℕ} {low high : ℤ} (h0 : 0 ≤ low)
    (hn : high < keys.length) (hlh : low ≤ high + 1) (hf : high - low + 1 < fuel) :
    ∃ b i, indexSearchLoop keys key fuel low high = some (b, i) ∧ i ≤ keys.length ∧
      (b = true → keys[i]? = some key) := by
  induction fuel generalizing low high with
  | zero => omega
  | succ fuel ih =>
      rw [indexSearchLoop]
      by_cases hle : low ≤ high
      · rw [if_pos hle]
        dsimp only
        have hi : ((low + high) / 2).toNat < keys.length := by omega
        rw [List.getElem?_eq_getElem hi, Option.bind_eq_bind, Option.bind_some]
        by_cases heq : keys[((low + high) / 2).toNat] = key
        · rw [if_pos heq]
          refine ⟨true, _, rfl, hi.le, fun _ => ?_⟩
          rw [List.getElem?_eq_getElem hi, heq]
        · rw [if_neg heq]
          by_cases hlt : keys[((low + high) / 2).toNat] < key
          · rw [if_pos hlt]
            exact ih (by omega) hn (by omega) (by omega)
          · rw [if_neg hlt]
            exact ih h0 (by omega) (by omega) (by omega)
      · rw [if_neg hle]
        exact ⟨false, low.toNat, rfl, by omega, fun h => by cases h⟩

theorem indexSearch_total (keys : List K) (key : K) :
    ∃ b i, indexSearch keys key = some (b, i) ∧ i ≤ keys.length ∧
      (b = true → keys[i]? = some key) :=
  indexSearchLoop_total (by omega) (by omega) (by omega) (by omega)

/-- Everything before `low` is smaller than the key and everything after `high` is larger. -/
theorem indexSearchLoop_spec {fuel : ℕ} {low high : ℤ} (hs : keys.Pairwise (· < ·)) (h0 : 0 ≤ low)
    (hn : high < keys.length) (hlh : low ≤ high + 1) (hf : high - low + 1 < fuel)
    (hlow : ∀ (i : ℕ) (hi : i < keys.length), (i : ℤ) < low → keys[i] < key)
    (hhigh : ∀ (i : ℕ) (hi : i < keys.length), high < i → key < keys[i]) :
    indexSearchLoop keys key fuel low high = some (decide (key ∈ keys), rank keys key) := by
  induction fuel generalizing low high with
  | zero => omega
  | succ fuel ih =>
      rw [indexSearchLoop]
      by_cases hle : low ≤ high
      · rw [if_pos hle]
        dsimp only
        have hi : ((low + high) / 2).toNat < keys.length := by omega
        rw [List.getElem?_eq_getElem hi, Option.bind_eq_bind, Option.bind_some]
        by_cases heq : keys[((low + high) / 2).toNat] = key
        · have hmem : key ∈ keys := heq ▸ List.getElem_mem hi
          have hrank : rank keys key = ((low + high) / 2).toNat := by
            have hsplit := List.take_append_drop ((low + high) / 2).toNat keys
            rw [← hsplit, rank_split, List.length_take, Nat.min_eq_left hi.le]
            · intro x hx
              obtain ⟨j, hj, rfl⟩ := List.mem_take_iff_getElem.mp hx
              have hjm : j < ((low + high) / 2).toNat := by omega
              rw [← heq]
              exact List.pairwise_iff_getElem.mp hs j _ (by omega) hi hjm
            · intro x hx
              obtain ⟨j, hj, rfl⟩ := List.mem_drop_iff_getElem.mp hx
              rw [← heq]
              rcases Nat.eq_zero_or_pos j with rfl | hjpos
              · simp
              · exact (List.pairwise_iff_getElem.mp hs _ _ hi (by omega) (by omega)).le
          rw [if_pos heq, hrank, decide_eq_true hmem]
          rfl
        · rw [if_neg heq]
          by_cases hlt : keys[((low + high) / 2).toNat] < key
          · rw [if_pos hlt]
            refine ih (by omega) hn (by omega) (by omega) (fun j hj hjl => ?_) hhigh
            rcases Nat.lt_or_ge j ((low + high) / 2).toNat with hjm | hjm
            · exact (List.pairwise_iff_getElem.mp hs j _ hj hi hjm).trans hlt
            · obtain rfl : j = ((low + high) / 2).toNat := by omega
              exact hlt
          · rw [if_neg hlt]
            have hgt : key < keys[((low + high) / 2).toNat] :=
              lt_of_le_of_ne (not_lt.mp hlt) (fun h => heq h.symm)
            refine ih h0 (by omega) (by omega) (by omega) hlow (fun j hj hjl => ?_)
            rcases Nat.lt_or_ge ((low + high) / 2).toNat j with hjm | hjm
            · exact hgt.trans (List.pairwise_iff_getElem.mp hs _ j hi hj hjm)
            · obtain rfl : j = ((low + high) / 2).toNat := by omega
              exact hgt
      · rw [if_neg hle]
        have hno : key ∉ keys := by
          intro hmem
          obtain ⟨j, hj, rfl⟩ := List.getElem_of_mem hmem
          rcases lt_or_ge (j : ℤ) low with hjl | hjl
          · exact lt_irrefl _ (hlow j hj hjl)
          · exact lt_irrefl _ (hhigh j hj (by omega))
        have hrank : rank keys key = low.toNat := by
          rw [← List.take_append_drop low.toNat keys, rank_split, List.length_take,
            Nat.min_eq_left (by omega)]
          · intro x hx
            obtain ⟨j, hj, rfl⟩ := List.mem_take_iff_getElem.mp hx
            exact hlow j (by omega) (by omega)
          · intro x hx
            obtain ⟨j, hj, rfl⟩ := List.mem_drop_iff_getElem.mp hx
            exact (hhigh _ (by omega) (by omega)).le
        rw [hrank, decide_eq_false hno]
        rfl

theorem indexSearch_spec (hs : keys.Pairwise (· < ·)) :
    indexSearch keys key = some (decide (key ∈ keys), rank keys key) :=
  indexSearchLoop_spec hs (by omega) (by omega) (by omega) (by omega)
    (fun i _ hi => by omega) (fun i hi h => by omega)

end Order

/-! ## Keys in memory -/

/-- A comparison by sign that is a strict total order. -/
structure StrictTotal {K : Type} (cmp : K → K → ℤ) : Prop where
  zero : ∀ a b, cmp a b = 0 ↔ a = b
  neg : ∀ a b, cmp a b < 0 ↔ 0 < cmp b a
  trans : ∀ a b c, cmp a b < 0 → cmp b c < 0 → cmp a c < 0

section Memory

variable {K : Type} {cmp : K → K → ℤ}

/-- The order that a comparison stands for. -/
@[reducible] def StrictTotal.order (h : StrictTotal cmp) : LinearOrder K where
  le a b := cmp a b ≤ 0
  lt a b := cmp a b < 0
  le_refl a := ((h.zero a a).mpr rfl).le
  le_trans a b c hab hbc := by
    rcases hab.lt_or_eq with hab | hab
    · rcases hbc.lt_or_eq with hbc | hbc
      · exact (h.trans a b c hab hbc).le
      · exact (h.zero b c).mp hbc ▸ hab.le
    · exact (h.zero a b).mp hab ▸ hbc
  lt_iff_le_not_ge a b := by
    rw [h.neg a b, not_le]
    exact ⟨fun hlt => ⟨((h.neg a b).mpr hlt).le, hlt⟩, fun hlt => hlt.2⟩
  le_antisymm a b hab hba := by
    apply (h.zero a b).mp
    apply le_antisymm hab
    by_contra hlt
    exact absurd ((h.neg a b).mp (not_le.mp hlt)) (not_lt.mpr hba)
  le_total a b := by
    rcases le_or_gt (cmp a b) 0 with hle | hgt
    · exact Or.inl hle
    · exact Or.inr ((h.neg b a).mpr hgt).le
  toDecidableLE a b := inferInstanceAs (Decidable (cmp a b ≤ 0))
  toDecidableLT a b := inferInstanceAs (Decidable (cmp a b < 0))
  toDecidableEq a b := decidable_of_iff _ (h.zero a b)

/-- The loop of `__index_search` on keys `size` bytes apart from `base` on; `mem` is the key at
an address. The element that was found, and the index. -/
def indexSearchAtLoop (cmp : K → K → ℤ) (mem : ℕ → Option K) (base size : ℕ) (key : K) :
    ℕ → ℤ → ℤ → Option (Option ℕ × ℕ)
  | 0, _, _ => none
  | fuel + 1, low, high =>
      if low ≤ high then do
        let i := (low + high) / 2
        let mid := base + i.toNat * size
        let c := cmp (← mem mid) key
        if c = 0 then return (some mid, i.toNat)
        else if c < 0 then indexSearchAtLoop cmp mem base size key fuel (i + 1) high
        else indexSearchAtLoop cmp mem base size key fuel low (i - 1)
      else return (none, low.toNat)

def indexSearchAt (cmp : K → K → ℤ) (mem : ℕ → Option K) (base n size : ℕ) (key : K) :
    Option (Option ℕ × ℕ) :=
  indexSearchAtLoop cmp mem base size key (n + 1) 0 (n - 1)

def elementAt (base size : ℕ) (r : Bool × ℕ) : Option ℕ × ℕ :=
  (if r.1 then some (base + r.2 * size) else none, r.2)

variable {mem : ℕ → Option K} {base size fuel : ℕ} {keys : List K} {key : K} {low high : ℤ}

theorem indexSearchAtLoop_eq (h : StrictTotal cmp)
    (hmem : ∀ (i : ℕ) (hi : i < keys.length), mem (base + i * size) = some keys[i]) (h0 : 0 ≤ low)
    (hn : high < keys.length) :
    indexSearchAtLoop cmp mem base size key fuel low high =
      (@indexSearchLoop K h.order keys key fuel low high).map (elementAt base size) := by
  let : LinearOrder K := h.order
  induction fuel generalizing low high with
  | zero => rfl
  | succ fuel ih =>
      rw [indexSearchAtLoop, indexSearchLoop]
      by_cases hle : low ≤ high
      · have hi : ((low + high) / 2).toNat < keys.length := by omega
        rw [if_pos hle, if_pos hle]
        simp only [hmem _ hi, List.getElem?_eq_getElem hi, Option.bind_eq_bind, Option.bind_some,
          h.zero]
        by_cases heq : keys[((low + high) / 2).toNat] = key
        · rw [if_pos heq, if_pos heq]
          rfl
        · rw [if_neg heq, if_neg heq]
          by_cases hlt : keys[((low + high) / 2).toNat] < key
          · have hneg : cmp keys[((low + high) / 2).toNat] key < 0 := hlt
            rw [if_pos hlt, if_pos hneg]
            exact ih (by omega) hn
          · have hneg : ¬ cmp keys[((low + high) / 2).toNat] key < 0 := hlt
            rw [if_neg hlt, if_neg hneg]
            exact ih h0 (by omega)
      · rw [if_neg hle, if_neg hle]
        rfl

/-- On an array that is sorted by the comparison the search ends, compares with elements of the
array only, and finds the key, or else the number of elements smaller than it. -/
theorem indexSearchAt_spec (h : StrictTotal cmp) (hs : keys.Pairwise (fun a b => cmp a b < 0))
    (hmem : ∀ (i : ℕ) (hi : i < keys.length), mem (base + i * size) = some keys[i]) (key : K) :
    ∃ r, indexSearchAt cmp mem base keys.length size key = some r ∧
      ((∃ i, keys[i]? = some key ∧ r = (some (base + i * size), i)) ∨
        (key ∉ keys ∧ r = (none, keys.countP fun a => cmp a key < 0))) ∧
      (keys = [] → r = (none, 0)) := by
  let : LinearOrder K := h.order
  have hrun : indexSearchAt cmp mem base keys.length size key =
      (indexSearch keys key).map (elementAt base size) :=
    indexSearchAtLoop_eq h hmem le_rfl (by omega)
  have hspec : indexSearch keys key = some (decide (key ∈ keys), rank keys key) :=
    indexSearch_spec hs
  rw [hspec, Option.map_some] at hrun
  refine ⟨_, hrun, ?_, ?_⟩
  · by_cases hkey : key ∈ keys
    · left
      obtain ⟨b, i, htotal, -, hfound⟩ := indexSearch_total keys key
      obtain ⟨rfl, rfl⟩ := Prod.mk.inj (Option.some.inj (hspec.symm.trans htotal))
      refine ⟨rank keys key, hfound (decide_eq_true hkey), ?_⟩
      rw [elementAt, decide_eq_true hkey]
      rfl
    · right
      refine ⟨hkey, ?_⟩
      rw [elementAt, decide_eq_false hkey]
      rfl
  · rintro rfl
    rfl

theorem indexSearchAt_spec_two : ∃ r,
    indexSearchAt (fun a b : ℕ => (a : ℤ) - b) (fun a => [0, 1][a / 4]?) 0 2 4 1 = some r ∧
      ((∃ i, [0, 1][i]? = some 1 ∧ r = (some (0 + i * 4), i)) ∨
        (1 ∉ [0, 1] ∧ r = (none, [0, 1].countP fun a : ℕ => (a : ℤ) - (1 : ℕ) < 0))) ∧
      ([0, 1] = ([] : List ℕ) → r = (none, 0)) := by
  have horder : StrictTotal fun a b : ℕ => (a : ℤ) - b := by
    refine ⟨?_, ?_, ?_⟩
    · intro a b
      omega
    · intro a b
      omega
    · intro a b c hab hbc
      omega
  have hsorted : [0, 1].Pairwise fun a b : ℕ => (a : ℤ) - b < 0 := by decide
  have hdata : ∀ i (hi : i < [0, 1].length), [0, 1][(0 + i * 4) / 4]? = some [0, 1][i] := by decide
  exact indexSearchAt_spec horder hsorted hdata 1

end Memory

end Carthage
