import Carthage.ChainedTable

/-!
# Association lists up to order

The content of a table is a list of key-payload pairs with pairwise different keys,
known up to permutation. `KeyOps.find` is the finite map such a list stands for.
-/

namespace Carthage

theorem perm_flatten_set {α : Type} {l : List (List α)} {i : ℕ} {xs : List α}
    (h : l[i]? = some xs) (ys : List α) : ((l.set i ys).flatten ++ xs).Perm (l.flatten ++ ys) := by
  induction l generalizing i with
  | nil => cases h
  | cons x l ih =>
      cases i with
      | zero =>
          obtain rfl : x = xs := Option.some.inj h
          simp only [List.set_cons_zero, List.flatten_cons]
          have hmove : ((ys ++ l.flatten) ++ x).Perm (x ++ (ys ++ l.flatten)) := List.perm_append_comm
          have hswap : (x ++ (ys ++ l.flatten)).Perm (x ++ (l.flatten ++ ys)) :=
            List.perm_append_comm.append_left x
          rw [List.append_assoc x]
          exact hmove.trans hswap
      | succ i =>
          simp only [List.set_cons_succ, List.flatten_cons, List.append_assoc]
          exact (ih h).append_left x

namespace KeyOps

variable {K P : Type} (ops : KeyOps K)

def Distinct (L : List (K × P)) : Prop := L.Pairwise (fun x y => ops.keycmp x.1 y.1 ≠ 0)

def find (L : List (K × P)) (k : K) : Option (K × P) :=
  L.find? (fun e => decide (ops.keycmp e.1 k = 0))

variable {ops} {L L' : List (K × P)} {k : K} {e : K × P}

theorem distinct_perm (h : L.Perm L') : ops.Distinct L ↔ ops.Distinct L' :=
  h.pairwise_iff (fun {x y} hxy hyx => hxy (ops.keycmp_symm y.1 x.1 hyx))

theorem distinct_cons : ops.Distinct (e :: L) ↔
    (∀ x ∈ L, ops.keycmp e.1 x.1 ≠ 0) ∧ ops.Distinct L := List.pairwise_cons

theorem find_eq_none : ops.find L k = none ↔ ∀ x ∈ L, ops.keycmp x.1 k ≠ 0 := by
  simp [find]

theorem find_cons_of_eq (h : ops.keycmp e.1 k = 0) : ops.find (e :: L) k = some e := by
  simp [find, h]

theorem find_cons_of_ne (h : ops.keycmp e.1 k ≠ 0) : ops.find (e :: L) k = ops.find L k := by
  simp [find, h]

theorem mem_of_find (h : ops.find L k = some e) : e ∈ L ∧ ops.keycmp e.1 k = 0 := by
  refine ⟨List.mem_of_find?_eq_some h, ?_⟩
  simpa using List.find?_some h

theorem find_eq_some (hd : ops.Distinct L) :
    ops.find L k = some e ↔ e ∈ L ∧ ops.keycmp e.1 k = 0 := by
  refine ⟨mem_of_find, ?_⟩
  rintro ⟨he, hk⟩
  induction L with
  | nil => cases he
  | cons x L ih =>
      obtain ⟨hx, hL⟩ := distinct_cons.mp hd
      rcases List.mem_cons.mp he with rfl | he
      · exact find_cons_of_eq hk
      · have hne : ops.keycmp x.1 k ≠ 0 := fun hc =>
          hx e he (ops.keycmp_trans _ _ _ hc (ops.keycmp_symm _ _ hk))
        rw [find_cons_of_ne hne]
        exact ih hL he

theorem find_perm (hd : ops.Distinct L) (h : L.Perm L') : ops.find L k = ops.find L' k := by
  have hd' := (distinct_perm h).mp hd
  cases hf : ops.find L' k with
  | none =>
      rw [find_eq_none] at hf ⊢
      exact fun x hx => hf x (h.mem_iff.mp hx)
  | some e =>
      rw [find_eq_some hd'] at hf
      exact (find_eq_some hd).mpr ⟨h.mem_iff.mpr hf.1, hf.2⟩

theorem find_tail (hd : ops.Distinct (e :: L)) :
    ops.find L k = if ops.keycmp e.1 k = 0 then none else ops.find (e :: L) k := by
  obtain ⟨he, -⟩ := distinct_cons.mp hd
  split_ifs with hk
  · refine find_eq_none.mpr (fun x hx hc => he x hx ?_)
    exact ops.keycmp_trans _ _ _ hk (ops.keycmp_symm _ _ hc)
  · exact (find_cons_of_ne hk).symm

theorem find_congr_key {k' : K} (h : ops.keycmp k k' = 0) : ops.find L k = ops.find L k' := by
  unfold find
  congr 1
  funext e
  have : ops.keycmp e.1 k = 0 ↔ ops.keycmp e.1 k' = 0 :=
    ⟨fun he => ops.keycmp_trans _ _ _ he h,
      fun he => ops.keycmp_trans _ _ _ he (ops.keycmp_symm _ _ h)⟩
  simp only [this]

theorem find_overwrite {M : List (K × P)} {v : P} (hd : ops.Distinct L)
    (hk : ops.find L k = some e) (hM : L.Perm (e :: M)) (k' : K) :
    ops.find ((e.1, v) :: M) k' =
      if ops.keycmp k k' = 0 then some (e.1, v) else ops.find L k' := by
  have hek := (mem_of_find hk).2
  split_ifs with hkk
  · exact find_cons_of_eq (ops.keycmp_trans _ _ _ hek hkk)
  · have hne : ops.keycmp e.1 k' ≠ 0 := fun hc =>
      hkk (ops.keycmp_trans _ _ _ (ops.keycmp_symm _ _ hek) hc)
    rw [find_perm hd hM, find_cons_of_ne hne]
    exact find_cons_of_ne hne

theorem find_remove {M : List (K × P)} (hd : ops.Distinct L)
    (hk : ops.find L k = some e) (hM : L.Perm (e :: M)) (k' : K) :
    ops.find M k' = if ops.keycmp k k' = 0 then none else ops.find L k' := by
  have hek := (mem_of_find hk).2
  have hiff : ops.keycmp e.1 k' = 0 ↔ ops.keycmp k k' = 0 :=
    ⟨fun h => ops.keycmp_trans _ _ _ (ops.keycmp_symm _ _ hek) h,
      fun h => ops.keycmp_trans _ _ _ hek h⟩
  rw [find_tail ((distinct_perm hM).mp hd), find_perm hd hM]
  simp only [hiff]

theorem find_add {v : P} (k' : K) : ops.find ((k, v) :: L) k' =
    if ops.keycmp k k' = 0 then some (k, v) else ops.find L k' := by
  split_ifs with hkk
  · exact find_cons_of_eq hkk
  · exact find_cons_of_ne hkk

/-- The payload that a list of pairs holds for a key. -/
def value (ops : KeyOps K) (L : List (K × P)) (k : K) : Option P := (ops.find L k).map Prod.snd

theorem value_perm (hd : ops.Distinct L) (h : L.Perm L') (k : K) :
    ops.value L k = ops.value L' k := by
  rw [value, value, find_perm hd h]

theorem value_overwrite {M : List (K × P)} (hd : ops.Distinct L) (hk : ops.find L k = some e)
    (hM : L.Perm (e :: M)) (v : P) (k' : K) :
    ops.value ((e.1, v) :: M) k' = if ops.keycmp k k' = 0 then some v else ops.value L k' := by
  rw [value, find_overwrite hd hk hM]
  split_ifs <;> rfl

theorem value_remove {M : List (K × P)} (hd : ops.Distinct L) (hk : ops.find L k = some e)
    (hM : L.Perm (e :: M)) (k' : K) :
    ops.value M k' = if ops.keycmp k k' = 0 then none else ops.value L k' := by
  rw [value, find_remove hd hk hM]
  split_ifs <;> rfl

theorem value_add (v : P) (k' : K) : ops.value ((k, v) :: L) k' =
    if ops.keycmp k k' = 0 then some v else ops.value L k' := by
  rw [value, find_add]
  split_ifs <;> rfl

theorem exists_perm_cons (h : ops.find L k = some e) : ∃ M, L.Perm (e :: M) := by
  obtain ⟨s, t, rfl⟩ := List.append_of_mem (mem_of_find h).1
  exact ⟨s ++ t, List.perm_middle⟩

end KeyOps

end Carthage
