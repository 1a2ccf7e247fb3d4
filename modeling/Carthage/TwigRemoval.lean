import Carthage.BtreeTwig

/-!
# Removal from a twig

Removal takes back what an insertion did to the entries and to the children, but not to
`nh_free`, and it reads one slot too many.
-/

namespace Carthage

namespace Btree

variable {K D : Type} {s s' : Btree K D} {x index free : ℕ} {key : K} {value : NodePointer}
  {entries : List (K × NodePointer)} {children A B R : List (Option ℕ)} {r y : Option ℕ}

/-- A twig with its entries and, in step with them, the children in memory. The array of children
has `fanout` slots. -/
def TwigHolds (s : Btree K D) (x : ℕ) (entries : List (K × NodePointer))
    (children : List (Option ℕ)) (free : ℕ) : Prop :=
  ∃ node crc level rest, s.heap x = some node ∧
    node.data = some ⟨crc, level, .twig ⟨entries, free⟩⟩ ∧
    node.pointers = some (children ++ rest) ∧ children.length = entries.length ∧
    (children ++ rest).length = s.super.fanout

theorem moveSlots_close (A B R : List (Option ℕ)) (r y : Option ℕ) :
    moveSlots (A ++ y :: (B ++ r :: R)) A.length (A.length + 1) (B.length + 1) =
      A ++ B ++ r :: r :: R := by
  have hdrop : (A ++ y :: (B ++ r :: R)).drop (A.length + 1) = B ++ r :: R := by
    rw [← List.drop_drop, List.drop_left]
    rfl
  have htake : (B ++ r :: R).take (B.length + 1) = B ++ [r] := by
    rw [List.take_append, List.take_of_length_le (by omega)]
    simp
  have hrest : (A ++ y :: (B ++ r :: R)).drop (A.length + (B.length + 1)) = r :: R := by
    rw [Nat.add_comm B.length, ← Nat.add_assoc, ← List.drop_drop, hdrop, List.drop_left]
  rw [moveSlots, List.take_left, hdrop, htake, hrest]
  simp

theorem TwigHolds.twigInsert (h : s.TwigHolds x entries children free)
    (hn : entries.length < s.super.fanout) (hi : index ≤ entries.length) (key : K)
    (value : NodePointer) :
    ∃ s', s.twigInsert x index key value = some s' ∧ s'.super = s.super ∧
      ∃ y, s'.TwigHolds x (entries.insertIdx index (key, value))
        (children.take index ++ y :: children.drop index) (sub32 free s.super.twigNeeded) := by
  obtain ⟨node, crc, level, rest, hx, hdata, hpointers, hlen, hfan⟩ := h
  have hsum : (children ++ rest).length = children.length + rest.length := List.length_append
  obtain ⟨r, R, rfl⟩ : ∃ r R, rest = r :: R := by
    apply List.exists_cons_of_ne_nil
    rintro rfl
    rw [List.length_nil] at hsum
    omega
  have hA : (children.take index).length = index := List.length_take_of_le (by omega)
  have hB : (children.drop index).length = entries.length - index := by
    rw [List.length_drop, hlen]
  obtain ⟨y, hgap⟩ := moveSlots_gap (children.take index) (children.drop index) R r
  rw [List.take_append_drop, hA, hB] at hgap
  let pointers' := (children.take index ++ y :: children.drop index) ++ R
  have hpointers' : moveSlots (children ++ r :: R) (index + 1) index (entries.length - index) =
      pointers' := by
    rw [hgap]
    simp [pointers']
  have hle : index ≤ entries.length ∧ entries.length < (children ++ r :: R).length :=
    ⟨hi, by omega⟩
  let node' : BtNode K := { node with
    pointers := some pointers',
    data := some ⟨crc, level,
      .twig ⟨entries.insertIdx index (key, value), sub32 free s.super.twigNeeded⟩⟩,
    dirty := true }
  refine ⟨s.setNode x node', ?_, rfl, y, node', crc, level, R, setNode_heap_self _ _ _, rfl, rfl,
    ?_, ?_⟩
  · unfold Btree.twigInsert
    simp only [hx, hdata, hpointers, Page.twig?, Option.bind_eq_bind, Option.bind_some,
      if_pos hle, hpointers', Option.pure_def, putTwig]
    rfl
  · rw [List.length_insertIdx_of_le_length hi, List.length_append, List.length_cons, hA, hB]
    omega
  · simp only [List.length_append, List.length_cons, hA, hB] at hfan hsum ⊢
    change _ = s.super.fanout
    omega

theorem TwigHolds.twigRemove_full (h : s.TwigHolds x entries children free)
    (hfull : entries.length = s.super.fanout) (hi : index + 1 < entries.length) :
    s.twigRemove x index = none := by
  obtain ⟨node, crc, level, rest, hx, hdata, hpointers, hlen, hfan⟩ := h
  have hend : ¬ entries.length < (children ++ rest).length := by omega
  unfold Btree.twigRemove
  simp only [hx, hdata, hpointers, Page.twig?, Option.bind_eq_bind, Option.bind_some, if_pos hi,
    if_neg hend]

/-- What a removal leaves of the array once the last slot of the twig is cleared. -/
theorem twigRemove_eq {node : BtNode K} {crc level : ℕ} {rest : List (Option ℕ)}
    (hx : s.heap x = some node) (hdata : node.data = some ⟨crc, level, .twig ⟨entries, free⟩⟩)
    (hpointers : node.pointers = some (children ++ rest)) (hlen : children.length = entries.length)
    (hi : index < entries.length) (hroom : rest ≠ [] ∨ index + 1 = entries.length) :
    s.twigRemove x index = some (s.setNode x { node with
      pointers := some (children.eraseIdx index ++ none :: rest),
      data := some ⟨crc, level, .twig ⟨entries.eraseIdx index, sub32 free s.super.twigNeeded⟩⟩,
      dirty := true }) := by
  have hsum : (children ++ rest).length = children.length + rest.length := List.length_append
  have hcut : children = children.take index ++ children[index] :: children.drop (index + 1) := by
    rw [← List.drop_eq_getElem_cons, List.take_append_drop]
  have hA : (children.take index).length = index := List.length_take_of_le (by omega)
  have hB : (children.drop (index + 1)).length = entries.length - 1 - index := by
    rw [List.length_drop, hlen]
    omega
  unfold Btree.twigRemove
  by_cases hend : index + 1 < entries.length
  · obtain ⟨r, R, rfl⟩ := List.exists_cons_of_ne_nil (hroom.resolve_right (by omega))
    have hclose := moveSlots_close (children.take index) (children.drop (index + 1)) R r
      children[index]
    have hmoved : (moveSlots (children ++ r :: R) index (index + 1) (entries.length - index)).set
        (entries.length - 1) none = children.eraseIdx index ++ none :: r :: R := by
      have hn : entries.length - index = (children.drop (index + 1)).length + 1 := by omega
      have hlast : entries.length - 1 =
          (children.take index ++ children.drop (index + 1)).length := by
        rw [List.length_append]
        omega
      rw [hA, ← List.cons_append, ← List.append_assoc, ← hcut, ← hn] at hclose
      rw [hclose, List.eraseIdx_eq_take_drop_succ, hlast]
      simp
    have hlt : entries.length < (children ++ r :: R).length := by
      rw [hsum, List.length_cons]
      omega
    simp only [hx, hdata, hpointers, Page.twig?, Option.bind_eq_bind, Option.bind_some,
      if_pos hend, if_pos hlt, hmoved, Option.pure_def, putTwig]
  · have hlast : index = entries.length - 1 := by omega
    have hle : 0 < entries.length ∧ entries.length ≤ (children ++ rest).length := by omega
    have hset : (children ++ rest).set (entries.length - 1) none =
        children.eraseIdx index ++ none :: rest := by
      have hnil : children.drop (index + 1) = [] := List.drop_of_length_le (by omega)
      rw [List.eraseIdx_eq_take_drop_succ, hnil, ← hlast]
      conv => lhs; rw [hcut, hnil, List.append_assoc, List.set_append_right _ _ hA.le, hA]
      simp
    have hdrop : entries.dropLast = entries.eraseIdx index := by
      rw [List.dropLast_eq_eraseIdx (i := index) (by omega)]
    simp only [hx, hdata, hpointers, Page.twig?, Option.bind_eq_bind, Option.bind_some,
      if_neg hend, if_pos hle, hset, hdrop, Option.pure_def, putTwig]

theorem TwigHolds.twigRemove (h : s.TwigHolds x entries children free)
    (hi : index < entries.length)
    (hroom : entries.length < s.super.fanout ∨ index + 1 = entries.length) :
    ∃ s', s.twigRemove x index = some s' ∧
      s'.TwigHolds x (entries.eraseIdx index) (children.eraseIdx index)
        (sub32 free s.super.twigNeeded) := by
  obtain ⟨node, crc, level, rest, hx, hdata, hpointers, hlen, hfan⟩ := h
  have hsum : (children ++ rest).length = children.length + rest.length := List.length_append
  have hrest : rest ≠ [] ∨ index + 1 = entries.length := by
    refine hroom.imp_left ?_
    rintro hlt rfl
    rw [List.length_nil] at hsum
    omega
  refine ⟨_, twigRemove_eq hx hdata hpointers hlen hi hrest, _, crc, level, none :: rest,
    setNode_heap_self _ _ _, rfl, rfl, ?_, ?_⟩
  · rw [List.length_eraseIdx_of_lt hi, List.length_eraseIdx_of_lt (hlen ▸ hi), hlen]
  · rw [List.length_append, List.length_eraseIdx_of_lt (hlen ▸ hi), List.length_cons]
    change _ = s.super.fanout
    omega

theorem TwigHolds.free_unique {free' : ℕ} (h : s.TwigHolds x entries children free)
    (h' : s.TwigHolds x entries children free') : free = free' := by
  obtain ⟨node, crc, level, rest, hx, hdata, -⟩ := h
  obtain ⟨node', crc', level', rest', hx', hdata', -⟩ := h'
  obtain rfl := Option.some.inj (hx.symm.trans hx')
  have hbody := Option.some.inj (hdata.symm.trans hdata')
  simp only [Page.mk.injEq, PageBody.twig.injEq, TwigPage.mk.injEq] at hbody
  exact hbody.2.2.2

theorem TwigHolds.insert_remove (h : s.TwigHolds x entries children free)
    (hn : entries.length < s.super.fanout) (hi : index ≤ entries.length) (key : K)
    (value : NodePointer) :
    ∃ s₁, s.twigInsert x index key value = some s₁ ∧
      (entries.length + 1 < s.super.fanout ∨ index = entries.length →
        ∃ s₂, s₁.twigRemove x index = some s₂ ∧ s₂.TwigHolds x entries children
          (sub32 (sub32 free s.super.twigNeeded) s.super.twigNeeded)) ∧
      (¬ (entries.length + 1 < s.super.fanout ∨ index = entries.length) →
        s₁.twigRemove x index = none) := by
  have hlen : children.length = entries.length := by
    obtain ⟨-, -, -, -, -, -, -, hlen, -⟩ := h
    exact hlen
  obtain ⟨s₁, hinsert, hsuper, y, h₁⟩ := h.twigInsert hn hi key value
  have hcount : (entries.insertIdx index (key, value)).length = entries.length + 1 :=
    List.length_insertIdx_of_le_length hi _
  refine ⟨s₁, hinsert, ?_, ?_⟩
  · intro hroom
    have hi' : index < (entries.insertIdx index (key, value)).length := by omega
    obtain ⟨s₂, hremove, h₂⟩ := h₁.twigRemove hi' (by rw [hsuper, hcount]; omega)
    have hA : (children.take index).length = index := List.length_take_of_le (by omega)
    have hchildren : (children.take index ++ y :: children.drop index).eraseIdx index =
        children := by
      rw [List.eraseIdx_append_of_length_le hA.le, hA, Nat.sub_self, List.eraseIdx_zero,
        List.tail_cons, List.take_append_drop]
    rw [List.eraseIdx_insertIdx_self, hchildren, hsuper] at h₂
    exact ⟨s₂, hremove, h₂⟩
  · intro hroom
    apply h₁.twigRemove_full
    · rw [hsuper, hcount]
      omega
    · omega

/-- Removal takes an insertion back, unless it reads behind the array, but `nh_free` is decreased
twice; and it stays within the slots of the twig unless the twig is full. -/
theorem twigRemove_after_twigInsert (h : s.TwigHolds x entries children free)
    (hpre : s.super.prefixSize < 2 ^ 16) (hfree : free < 2 ^ 32) :
    (∀ index key value, index ≤ entries.length → entries.length < s.super.fanout →
      (¬ ∃ s₁ s₂, s.twigInsert x index key value = some s₁ ∧ s₁.twigRemove x index = some s₂ ∧
        s₂.TwigHolds x entries children free) ∧
      ((∃ s₁ s₂ free', s.twigInsert x index key value = some s₁ ∧
        s₁.twigRemove x index = some s₂ ∧ s₂.TwigHolds x entries children free') ↔
          entries.length + 1 < s.super.fanout ∨ index = entries.length)) ∧
    (∀ index < entries.length, (∃ s', s.twigRemove x index = some s') ↔
      entries.length < s.super.fanout ∨ index + 1 = entries.length) := by
  refine ⟨?_, ?_⟩
  · intro index key value hi hn
    obtain ⟨s₁, hinsert, hdone, hstuck⟩ := h.insert_remove hn hi key value
    have hdecreased : sub32 (sub32 free s.super.twigNeeded) s.super.twigNeeded ≠ free := by
      unfold sub32 Geometry.twigNeeded
      omega
    refine ⟨?_, ?_, ?_⟩
    · rintro ⟨s₁', s₂, hinsert', hremove, h₂⟩
      obtain rfl := Option.some.inj (hinsert.symm.trans hinsert')
      by_cases hroom : entries.length + 1 < s.super.fanout ∨ index = entries.length
      · obtain ⟨s₂', hremove', h₂'⟩ := hdone hroom
        obtain rfl := Option.some.inj (hremove.symm.trans hremove')
        exact hdecreased (h₂'.free_unique h₂)
      · rw [hstuck hroom] at hremove
        cases hremove
    · rintro ⟨s₁', s₂, free', hinsert', hremove, -⟩
      obtain rfl := Option.some.inj (hinsert.symm.trans hinsert')
      by_contra hroom
      rw [hstuck hroom] at hremove
      cases hremove
    · intro hroom
      obtain ⟨s₂, hremove, h₂⟩ := hdone hroom
      exact ⟨s₁, s₂, _, hinsert, hremove, h₂⟩
  · intro index hi
    constructor
    · rintro ⟨s', hremove⟩
      by_contra hroom
      have hfan : entries.length ≤ s.super.fanout := by
        obtain ⟨-, -, -, rest, -, -, -, hlen, hfan⟩ := h
        rw [List.length_append] at hfan
        omega
      rw [h.twigRemove_full (by omega) (by omega)] at hremove
      cases hremove
    · intro hroom
      obtain ⟨s', hremove, -⟩ := h.twigRemove hi hroom
      exact ⟨s', hremove⟩

/-- A tree whose only node is a twig with keys `0`, `1`, ... and two slots. -/
def loneTwig (count : ℕ) : Btree ℕ Unit where
  super := ⟨⟨64, 8, 8, 2⟩, 0, 0, 1, 0, 1, 0, 0, 0, 0⟩
  superOffset := 0
  cache := ⟨0, 0, [], fun _ => ⟨none, 0, none⟩, fun _ => none⟩
  disk := ()
  root := some 0
  heap := fun x => if x = 0 then
      some ⟨some (List.replicate 2 none), some ⟨0, 2, .twig
        ⟨(List.range count).map fun k => (k, nullPointer), 48 - 24 * count⟩⟩, 0, 0, true, false, false⟩
    else none
  refs := fun _ => 1
  fresh := 1
  mallocs := 3

theorem loneTwig_holds : (loneTwig 1).TwigHolds 0 [(0, nullPointer)] [none] 24 :=
  ⟨_, 0, 2, [none], rfl, rfl, rfl, rfl, rfl⟩

theorem twigRemove_after_twigInsert_one :
    (loneTwig 1).TwigHolds 0 [(0, nullPointer)] [none] 24 ∧
      ∃ s', (loneTwig 1).twigRemove 0 0 = some s' :=
  ⟨loneTwig_holds, ((twigRemove_after_twigInsert loneTwig_holds (by decide) (by decide)).2 0
    (by decide)).mpr (Or.inl (by decide))⟩

/-- One of two slots is taken, and `nh_free` is 24: an entry put behind it and removed again leaves
`2^32 - 24`. Both slots are taken: a removal of the first entry reads a third slot. -/
theorem twigRemove_after_twigInsert_two :
    (¬ ∃ s₁ s₂, (loneTwig 1).twigInsert 0 1 1 nullPointer = some s₁ ∧
      s₁.twigRemove 0 1 = some s₂ ∧ s₂.TwigHolds 0 [(0, nullPointer)] [none] 24) ∧
    ¬ ∃ s', (loneTwig 2).twigRemove 0 0 = some s' := by
  refine ⟨?_, ?_⟩
  · rintro ⟨s₁, s₂, hinsert, hremove, node, crc, level, rest, hx, hdata, -⟩
    have hfree : ((loneTwig 1).twigInsert 0 1 1 nullPointer).bind (fun s =>
        (s.twigRemove 0 1).bind fun s => (s.page 0).map Page.free) = some (2 ^ 32 - 24) := rfl
    rw [hinsert, Option.bind_some, hremove, Option.bind_some, Btree.page, hx] at hfree
    simp [hdata, Page.free] at hfree
  · rintro ⟨s', hremove⟩
    have hstuck : (loneTwig 2).twigRemove 0 0 = none := rfl
    rw [hstuck] at hremove
    cases hremove

end Btree

end Carthage
