import Mathlib.Data.List.Chain
import Mathlib.Data.List.Nodup
import Mathlib.Tactic

/-!
# Circular doubly linked lists

A circle is listed from any of its members. A member can be taken out, and a new one put
before the first, by overwriting the links of the neighbours.
-/

namespace Carthage

variable {A : Type} {next prev next' prev' : A → A} {as bs : List A} {h x : A}

def Linked (next prev : A → A) (x y : A) : Prop := next x = y ∧ prev y = x

structure Circle (next prev : A → A) (as : List A) : Prop where
  nodup : as.Nodup
  linked : ∀ h ∈ as.head?, List.IsChain (Linked next prev) (as ++ [h])

theorem isChain_mono {R S : A → A → Prop} (hc : List.IsChain R (as ++ [x]))
    (hRS : ∀ u ∈ as, ∀ v ∈ (as ++ [x]).tail, R u v → S u v) : List.IsChain S (as ++ [x]) := by
  induction as with
  | nil => exact List.isChain_singleton x
  | cons a as ih =>
      rw [List.cons_append, List.isChain_cons] at hc ⊢
      refine ⟨?_, ?_⟩
      · intro y hy
        apply hRS a List.mem_cons_self y _ (hc.1 y hy)
        exact List.mem_of_mem_head? hy
      · apply ih hc.2
        intro u hu v hv
        apply hRS u (List.mem_cons_of_mem a hu) v
        exact List.mem_of_mem_tail hv

namespace Circle

theorem nil : Circle next prev [] := ⟨List.nodup_nil, fun _ hh => (nomatch hh)⟩

theorem single (hn : next x = x) (hp : prev x = x) : Circle next prev [x] := by
  refine ⟨List.nodup_singleton x, ?_⟩
  rintro _ ⟨⟩
  exact List.isChain_pair.mpr ⟨hn, hp⟩

theorem chain (hc : Circle next prev (h :: as)) :
    List.IsChain (Linked next prev) (h :: as ++ [h]) := hc.linked h rfl

theorem cons_iff : Circle next prev (h :: as) ↔
    (h :: as).Nodup ∧ List.IsChain (Linked next prev) (h :: (as ++ [h])) := by
  constructor
  · intro hc
    exact ⟨hc.nodup, hc.chain⟩
  · rintro ⟨hnd, hchain⟩
    refine ⟨hnd, ?_⟩
    rintro _ ⟨⟩
    exact hchain

theorem rotate (hc : Circle next prev (as ++ bs)) : Circle next prev (bs ++ as) := by
  cases as with
  | nil =>
      rw [List.append_nil]
      exact hc
  | cons a as =>
      cases bs with
      | nil =>
          rw [List.append_nil] at hc
          exact hc
      | cons b bs =>
          rw [List.cons_append, cons_iff, List.append_assoc, List.cons_append,
            List.isChain_cons_split] at hc
          rw [List.cons_append, cons_iff, List.append_assoc, List.cons_append,
            List.isChain_cons_split]
          obtain ⟨hnd, hleft, hright⟩ := hc
          have hperm : (a :: as ++ b :: bs).Perm (b :: bs ++ a :: as) := List.perm_append_comm
          exact ⟨hperm.nodup_iff.mp hnd, hright, hleft⟩

theorem next_eq {y : A} (hc : Circle next prev (as ++ x :: y :: bs)) : next x = y := by
  have hrot : Circle next prev (x :: y :: (bs ++ as)) := hc.rotate
  exact (List.isChain_cons_cons.mp hrot.chain).1.1

theorem ends (hc : Circle next prev (as ++ [x])) (hh : (as ++ [x]).head? = some h) :
    next x = h ∧ prev h = x := by
  have hchain := hc.linked h hh
  rw [List.append_assoc, List.singleton_append, List.isChain_split] at hchain
  have hpair : Linked next prev x h := List.isChain_pair.mp hchain.2
  exact hpair

theorem getLast? (hc : Circle next prev as) (hh : as.head? = some h) :
    as.getLast? = some (prev h) := by
  rcases List.eq_nil_or_concat as with rfl | ⟨init, x, rfl⟩
  · cases hh
  rw [List.concat_eq_append] at hc hh ⊢
  rw [List.getLast?_concat, (hc.ends hh).2]

variable [DecidableEq A]

theorem unlink (hc : Circle next prev (x :: as)) (hne : as ≠ [])
    (hnext : ∀ u, next' u = if u = prev x then next x else next u)
    (hprev : ∀ v, prev' v = if v = next x then prev x else prev v) :
    Circle next' prev' as := by
  obtain ⟨hnd, hchain⟩ := cons_iff.mp hc
  obtain ⟨hx, has⟩ := List.nodup_cons.mp hnd
  obtain ⟨init, y, rfl⟩ := (List.eq_nil_or_concat as).resolve_left hne
  rw [List.concat_eq_append] at *
  have hends : Circle next prev ((x :: init) ++ [y]) := hc
  obtain ⟨-, hy⟩ : next y = x ∧ prev x = y := hends.ends rfl
  refine ⟨has, ?_⟩
  intro h hh
  -- The neighbours of `x` are `y` and `h`.
  have hxh : next x = h := by
    rw [List.isChain_cons] at hchain
    apply (hchain.1 h _).1
    rw [List.head?_append, hh]
    rfl
  rw [List.append_assoc, List.singleton_append, List.isChain_split]
  refine ⟨?_, List.isChain_pair.mpr ⟨?_, ?_⟩⟩
  · have hinner : List.IsChain (Linked next prev) (init ++ [y]) := by
      rw [List.append_assoc, List.singleton_append, List.isChain_cons] at hchain
      exact (List.isChain_split.mp hchain.2).1
    apply isChain_mono hinner
    rintro u hu v hv ⟨huv, hvu⟩
    have huy : u ≠ y := by
      rintro rfl
      exact List.disjoint_of_nodup_append has hu (List.mem_singleton_self u)
    have hvh : v ≠ h := by
      rintro rfl
      obtain ⟨t, ht⟩ := List.head?_eq_some_iff.mp hh
      rw [ht] at has hv
      exact (List.nodup_cons.mp has).1 hv
    refine ⟨?_, ?_⟩
    · rw [hnext, hy, if_neg huy]
      exact huv
    · rw [hprev, hxh, if_neg hvh]
      exact hvu
  · rw [hnext, hy, if_pos rfl, hxh]
  · rw [hprev, hxh, if_pos rfl, hy]

/-- Putting a new member before the first. -/
theorem insert (hc : Circle next prev as) (hh : as.head? = some h) (hx : x ∉ as)
    (hnext : ∀ u, next' u = if u = x then h else if u = prev h then x else next u)
    (hprev : ∀ v, prev' v = if v = x then prev h else if v = h then x else prev v) :
    Circle next' prev' (as ++ [x]) := by
  obtain ⟨init, y, rfl⟩ := (List.eq_nil_or_concat as).resolve_left (by rintro rfl; cases hh)
  rw [List.concat_eq_append] at *
  have has := hc.nodup
  obtain ⟨-, hy⟩ := hc.ends hh
  have hhx : h ≠ x := by
    rintro rfl
    exact hx (List.mem_of_mem_head? hh)
  have hyx : y ≠ x := by
    rintro rfl
    exact hx (List.mem_append_right _ (List.mem_singleton_self y))
  have hinner : List.IsChain (Linked next prev) (init ++ [y]) := by
    have hchain := hc.linked h hh
    rw [List.append_assoc, List.singleton_append] at hchain
    exact (List.isChain_split.mp hchain).1
  refine ⟨?_, ?_⟩
  · rw [List.nodup_append]
    refine ⟨has, List.nodup_singleton x, ?_⟩
    rintro u hu v hv rfl
    rw [List.mem_singleton] at hv
    exact hx (hv ▸ hu)
  · intro h' hh'
    rw [List.head?_append, hh] at hh'
    obtain rfl : h = h' := Option.some.inj hh'
    rw [List.append_assoc, List.singleton_append, List.append_assoc, List.singleton_append,
      List.isChain_split, List.isChain_cons_cons]
    refine ⟨?_, ⟨?_, ?_⟩, List.isChain_pair.mpr ⟨?_, ?_⟩⟩
    · apply isChain_mono hinner
      rintro u hu v hv ⟨huv, hvu⟩
      have hux : u ≠ x := by
        rintro rfl
        exact hx (List.mem_append_left _ hu)
      have huy : u ≠ y := by
        rintro rfl
        exact List.disjoint_of_nodup_append has hu (List.mem_singleton_self u)
      have hvx : v ≠ x := by
        rintro rfl
        exact hx (List.mem_of_mem_tail hv)
      have hvh : v ≠ h := by
        rintro rfl
        obtain ⟨t, ht⟩ := List.head?_eq_some_iff.mp hh
        rw [ht] at has hv
        exact (List.nodup_cons.mp has).1 hv
      refine ⟨?_, ?_⟩
      · rw [hnext, if_neg hux, hy, if_neg huy]
        exact huv
      · rw [hprev, if_neg hvx, if_neg hvh]
        exact hvu
    · rw [hnext, if_neg hyx, hy, if_pos rfl]
    · rw [hprev, if_pos rfl, hy]
    · rw [hnext, if_pos rfl]
    · rw [hprev, if_neg hhx, if_pos rfl]

end Circle

end Carthage
