import Carthage.LinkedChain

/-!
# Doubly linked chains in a heap

A `LinkPair` names two independent pointer fields of the nodes. A doubly linked chain is
followed from its head through one of them and from its tail, backwards, through the other.
-/

namespace Carthage

namespace LinkField

variable {A N O : Type} {F : LinkField A N} {h : A → Option N} {p q : Option A}
  {as bs : List A} {a x : A} [DecidableEq A]

/-- Overwrite the link of a node through a pointer that may be null. -/
def relinkIf (F : LinkField A N) (h : A → Option N) (p q : Option A) : A → Option N :=
  match p with
  | none => h
  | some a => F.relink h a q

theorem relink_map (obs : N → O) (hobs : ∀ q n, obs (F.set q n) = obs n) (b : A) :
    (F.relink h a q b).map obs = (h b).map obs := by
  by_cases hb : b = a
  · subst hb
    rw [relink_self, Option.map_map]
    cases h b with
    | none => rfl
    | some n => exact congrArg some (hobs q n)
  · rw [relink_of_ne hb]

theorem Chain.bypass (hc : F.Chain h p (as ++ x :: a :: bs)) (hnd : (as ++ x :: bs).Nodup) :
    F.Chain (F.relink h x bs.head?) p (as ++ x :: bs) := by
  have hsplit : ∀ cs : List A, as ++ x :: cs = (as ++ [x]) ++ cs := fun cs => by
    rw [List.append_assoc, List.singleton_append]
  unfold Chain at hc ⊢
  rw [hsplit] at hc hnd ⊢
  rw [path_append] at hc ⊢
  obtain ⟨r, has, rfl, n, hn, hbs⟩ := hc
  have hx : x ∉ as := by
    have hnd' := (List.nodup_append.mp hnd).1
    intro hmem
    exact List.disjoint_of_nodup_append hnd' hmem (List.mem_singleton_self x)
  have hxbs : x ∉ bs := fun hmem =>
    List.disjoint_of_nodup_append hnd (List.mem_append_right as (List.mem_singleton_self x)) hmem
  refine ⟨bs.head?, has.relink_last hx, ?_⟩
  rw [← Path.start_eq_head hbs]
  exact hbs.relink_of_notMem hxbs

theorem Chain.cut (hc : F.Chain h p (as ++ x :: bs)) (hx : x ∉ as) :
    F.Chain (F.relink h x none) p (as ++ [x]) := by
  unfold Chain at hc ⊢
  rw [← List.singleton_append, ← List.append_assoc, path_append] at hc
  obtain ⟨r, has, -⟩ := hc
  exact has.relink_last hx

end LinkField

structure LinkPair (A N : Type) where
  next : LinkField A N
  prev : LinkField A N
  next_prev : ∀ q n, next.get (prev.set q n) = next.get n
  prev_next : ∀ q n, prev.get (next.set q n) = prev.get n

namespace LinkPair

variable {A N : Type}

def flip (P : LinkPair A N) : LinkPair A N := ⟨P.prev, P.next, P.prev_next, P.next_prev⟩

structure Doubly (P : LinkPair A N) (h : A → Option N) (head tail : Option A) (as : List A) :
    Prop where
  next : P.next.Chain h head as
  prev : P.prev.Chain h tail as.reverse
  nodup : as.Nodup

namespace Doubly

variable {P : LinkPair A N} {h h' : A → Option N} {head tail : Option A} {as bs : List A}
  {a x y : A} {n : N}

theorem flip (hd : P.Doubly h head tail as) : P.flip.Doubly h tail head as.reverse := by
  refine ⟨hd.prev, ?_, List.nodup_reverse.mpr hd.nodup⟩
  rw [List.reverse_reverse]
  exact hd.next

theorem nil (P : LinkPair A N) (h : A → Option N) : P.Doubly h none none [] :=
  ⟨rfl, rfl, List.nodup_nil⟩

theorem head_eq (hd : P.Doubly h head tail as) : head = as.head? := hd.next.start_eq_head

theorem tail_eq (hd : P.Doubly h head tail as) : tail = as.getLast? := by
  rw [← List.head?_reverse]
  exact hd.prev.start_eq_head

theorem congr (hd : P.Doubly h head tail as)
    (hnext : ∀ a ∈ as, (h' a).map P.next.get = (h a).map P.next.get)
    (hprev : ∀ a ∈ as, (h' a).map P.prev.get = (h a).map P.prev.get) :
    P.Doubly h' head tail as := by
  refine ⟨hd.next.congr hnext, hd.prev.congr ?_, hd.nodup⟩
  intro a ha
  exact hprev a (List.mem_reverse.mp ha)

theorem congr_eq (hd : P.Doubly h head tail as) (heq : ∀ a ∈ as, h' a = h a) :
    P.Doubly h' head tail as :=
  hd.congr (fun a ha => by rw [heq a ha]) (fun a ha => by rw [heq a ha])

theorem links (hd : P.Doubly h head tail (as ++ x :: a :: y :: bs)) (hn : h a = some n) :
    P.prev.get n = some x ∧ P.next.get n = some y := by
  obtain ⟨r, -, -, m, -, -, n', hn', hrest⟩ := LinkField.path_append.mp hd.next
  have hrev : (as ++ x :: a :: y :: bs).reverse = bs.reverse ++ y :: a :: x :: as.reverse := by
    simp
  have hprev := hd.prev
  rw [hrev] at hprev
  obtain ⟨r', -, -, m', -, -, n'', hn'', hrest'⟩ := LinkField.path_append.mp hprev
  obtain rfl := Option.some.inj (hn.symm.trans hn')
  obtain rfl := Option.some.inj (hn.symm.trans hn'')
  exact ⟨hrest'.1, hrest.1⟩

theorem between (hd : P.Doubly h head tail as) (ha : a ∈ as) (hn : h a = some n)
    (hprev : P.prev.get n ≠ none) (hnext : P.next.get n ≠ none) :
    ∃ bs x y cs, as = bs ++ x :: a :: y :: cs := by
  obtain ⟨pre, post, rfl⟩ := List.append_of_mem ha
  have hback := hd.prev
  rw [List.reverse_append, List.reverse_cons, List.append_assoc, List.singleton_append] at hback
  obtain ⟨r, -, -, m, hm, hpost⟩ := LinkField.path_append.mp hd.next
  obtain ⟨r', -, -, m', hm', hpre⟩ := LinkField.path_append.mp hback
  obtain rfl := Option.some.inj (hn.symm.trans hm)
  obtain rfl := Option.some.inj (hn.symm.trans hm')
  rcases List.eq_nil_or_concat pre with rfl | ⟨pre, x, rfl⟩
  · exact absurd hpre hprev
  · cases post with
    | nil => exact absurd hpost hnext
    | cons y post =>
        refine ⟨pre, x, y, post, ?_⟩
        rw [List.concat_eq_append, List.append_assoc, List.singleton_append]

theorem exists_pair (hd : P.Doubly h head tail as) (hne : head ≠ tail) :
    ∃ a y bs, as = a :: y :: bs := by
  rw [hd.head_eq, hd.tail_eq] at hne
  cases as with
  | nil => exact absurd rfl hne
  | cons a bs =>
      cases bs with
      | nil => exact absurd rfl hne
      | cons y bs => exact ⟨a, y, bs, rfl⟩

variable [DecidableEq A]

theorem unlink (hd : P.Doubly h head tail (as ++ x :: a :: y :: bs)) :
    P.Doubly (P.prev.relink (P.next.relink h x (some y)) y (some x)) head tail
      (as ++ x :: y :: bs) := by
  have hnd : (as ++ x :: y :: bs).Nodup := by
    apply List.Nodup.sublist ?_ hd.nodup
    exact ((List.sublist_cons_self a (y :: bs)).cons_cons x).append_left as
  have hrev : (as ++ x :: a :: y :: bs).reverse = bs.reverse ++ y :: a :: x :: as.reverse := by
    simp
  have hrev' : (as ++ x :: y :: bs).reverse = bs.reverse ++ y :: x :: as.reverse := by simp
  refine ⟨?_, ?_, hnd⟩
  · have hnext : P.next.Chain (P.next.relink h x (some y)) head (as ++ x :: y :: bs) :=
      hd.next.bypass hnd
    apply hnext.congr
    intro b _
    exact LinkField.relink_map P.next.get P.next_prev b
  · have hprev := hd.prev
    rw [hrev] at hprev
    rw [hrev']
    have hprev' : P.prev.Chain (P.next.relink h x (some y)) tail
        (bs.reverse ++ y :: a :: x :: as.reverse) := by
      apply hprev.congr
      intro b _
      exact LinkField.relink_map P.prev.get P.prev_next b
    apply hprev'.bypass
    rw [← hrev']
    exact List.nodup_reverse.mpr hnd

theorem dropFirst (hd : P.Doubly h head tail (a :: y :: bs)) :
    P.Doubly (P.prev.relink h y none) (some y) tail (y :: bs) := by
  obtain ⟨-, n, -, hrest⟩ := hd.next
  have hnd := (List.nodup_cons.mp hd.nodup).2
  refine ⟨?_, ?_, hnd⟩
  · obtain ⟨hy, m, hm, hbs⟩ := hrest
    have hpath : P.next.Path h (some y) (y :: bs) none := ⟨rfl, m, hm, hbs⟩
    apply hpath.congr
    intro b _
    exact LinkField.relink_map P.next.get P.next_prev b
  · have hprev := hd.prev
    rw [List.reverse_cons, List.reverse_cons, List.append_assoc] at hprev
    rw [List.reverse_cons]
    apply LinkField.Chain.cut hprev
    rw [List.mem_reverse]
    exact (List.nodup_cons.mp hnd).1

theorem dropLast (hd : P.Doubly h head tail (as ++ [x, a])) :
    P.Doubly (P.next.relink h x none) head (some x) (as ++ [x]) := by
  have hflip := hd.flip
  have hrev : (as ++ [x, a]).reverse = a :: x :: as.reverse := by simp
  rw [hrev] at hflip
  have hback := hflip.dropFirst.flip
  rw [List.reverse_cons, List.reverse_reverse] at hback
  exact hback

theorem pushFront (hd : P.Doubly h head tail as) (ha : a ∉ as) (hself : h' a = some n)
    (hnext : P.next.get n = head) (hprev : P.prev.get n = none)
    (hrest : ∀ b ∈ as, h' b = P.prev.relinkIf h head (some a) b) :
    P.Doubly h' (some a) (if tail = none then some a else tail) (a :: as) := by
  have hmid : P.next.Chain (P.prev.relinkIf h head (some a)) head as := by
    cases head with
    | none => exact hd.next
    | some y =>
        apply hd.next.congr
        intro b _
        exact LinkField.relink_map P.next.get P.next_prev b
  refine ⟨⟨rfl, n, hself, ?_⟩, ?_, List.nodup_cons.mpr ⟨ha, hd.nodup⟩⟩
  · rw [hnext]
    exact hmid.congr_eq hrest
  · rw [List.reverse_cons]
    refine LinkField.path_concat.mpr ⟨?_, n, hself, hprev⟩
    cases as with
    | nil =>
        have htail : tail = none := hd.tail_eq
        rw [if_pos htail]
        exact rfl
    | cons y as =>
        obtain rfl : head = some y := hd.head_eq
        have htail : tail ≠ none := by
          rw [hd.tail_eq]
          simp
        have hback := hd.prev
        rw [List.reverse_cons] at hback ⊢
        rw [if_neg htail]
        have hy : y ∉ as.reverse := by
          rw [List.mem_reverse]
          exact (List.nodup_cons.mp hd.nodup).1
        have hlink := LinkField.Path.relink_last (q := some a) hback hy
        apply hlink.congr_eq
        intro b hb
        apply hrest
        simpa [or_comm] using hb

end Doubly

end LinkPair

end Carthage
