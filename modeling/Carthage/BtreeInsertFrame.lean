import Carthage.BtreeTorn

/-!
# What an insertion leaves of the other values

A miss leaves the size of the place as it was. If it happens to be the size of the new value,
`btree_insert` writes the value over the body of the next item and what lies behind it.
-/

namespace Carthage

namespace LeafPage

variable {K : Type} {g : Geometry} {p : LeafPage K} {C C' I J : List (K × List UInt8)}
  {x : K × List UInt8} {mem : Bytes} {e : ℕ} {value : List UInt8}

def reread (mem : Bytes) : ℕ → List (K × List UInt8) → List (K × List UInt8)
  | _, [] => []
  | e, x :: I => (x.1, mem.read (e - x.2.length) x.2.length) :: reread mem (e - x.2.length) I

@[simp] theorem reread_keys : (reread mem e I).map Prod.fst = I.map Prod.fst := by
  induction I generalizing e with
  | nil => rfl
  | cons x I ih => simp [reread, ih]

@[simp] theorem bodies_reread : bodies (reread mem e I) = bodies I := by
  induction I generalizing e with
  | nil => rfl
  | cons x I ih => simp [reread, ih]

theorem layout_reread : layout e (reread mem e I) = layout e I := by
  induction I generalizing e with
  | nil => rfl
  | cons x I ih => simp [reread, layout, ih]

theorem stored_reread : Stored mem e (reread mem e I) := by
  induction I generalizing e with
  | nil => trivial
  | cons x I ih => exact ⟨by simp, by simpa using ih⟩

theorem reread_stored (h : Stored mem e I) : reread mem e I = I := by
  induction I generalizing e with
  | nil => rfl
  | cons x I ih => rw [reread, h.1, ih h.2]

theorem Packed.reread (h : Packed g p I) (mem : Bytes) :
    Packed g { p with mem := mem } (LeafPage.reread mem g.blockSize I) := by
  have hlen : (LeafPage.reread mem g.blockSize I).length = I.length := by
    have hkeys : (LeafPage.reread mem g.blockSize I).map Prod.fst = I.map Prod.fst := reread_keys
    rw [← List.length_map Prod.fst, hkeys, List.length_map]
  refine ⟨?_, stored_reread, ?_, ?_⟩
  · rw [layout_reread]
    exact h.slots
  · rw [hlen, bodies_reread]
    exact h.room
  · rw [hlen, bodies_reread]
    exact h.free

theorem Stored.upwards (h : Stored mem e (C ++ x :: C')) (he : bodies C + x.2.length ≤ e) :
    mem.read (e - bodies C - x.2.length) (x.2.length + bodies C) =
      (x :: C.reverse).flatMap Prod.snd := by
  induction C generalizing e with
  | nil => simpa using h.1
  | cons c C ih =>
      rw [bodies_cons] at he ⊢
      have hoff : e - (c.2.length + bodies C) - x.2.length =
          e - c.2.length - bodies C - x.2.length := by omega
      have hsum : x.2.length + (c.2.length + bodies C) = x.2.length + bodies C + c.2.length := by
        omega
      have htop : e - c.2.length - bodies C - x.2.length + (x.2.length + bodies C) =
          e - c.2.length := by omega
      rw [hoff, hsum, Bytes.read_add, htop, h.1, ih h.2 (by omega), List.reverse_cons]
      simp

theorem length_upwards : ((x :: C.reverse).flatMap Prod.snd).length = x.2.length + bodies C := by
  simp [bodies, List.length_flatMap]

theorem Packed.overwrite (h : Packed g p (C ++ x :: C')) (value : List UInt8) :
    p.inlineReplace g C.length value = none ∧ ¬ value <+: (x :: C.reverse).flatMap Prod.snd ∨
    ∃ p' J, p.inlineReplace g C.length value = some p' ∧ Packed g p' J ∧
      J.map Prod.fst = (C ++ x :: C').map Prod.fst ∧
      (J = C ++ x :: C' ↔ value <+: (x :: C.reverse).flatMap Prod.snd) := by
  have hroom := h.room
  rw [bodies_append, bodies_cons] at hroom
  have hstart : g.bodyStart p.slots.length = g.bodyStart (C ++ x :: C').length := by
    rw [h.length]
  let off := g.blockSize - bodies C - x.2.length
  have hrun : p.inlineReplace g C.length value =
      (p.mem.memcpy (g.bodyStart p.slots.length) g.blockSize off value).bind fun mem =>
        some { p with mem := mem } := by
    unfold inlineReplace
    rw [h.slot_eq]
    rfl
  rw [hrun]
  by_cases hlen : value.length ≤ x.2.length + bodies C
  · refine Or.inr ⟨{ p with mem := p.mem.write off value },
      LeafPage.reread (p.mem.write off value) g.blockSize (C ++ x :: C'), ?_, h.reread _,
      reread_keys, ⟨fun hJ => ?_, fun hbegin => ?_⟩⟩
    · rw [Bytes.memcpy_eq (by simp only [off]; omega), Option.bind_some]
    · have hstored : Stored (p.mem.write off value) g.blockSize (C ++ x :: C') := by
        rw [← hJ]
        exact stored_reread
      rw [← hstored.upwards (by omega), List.prefix_iff_eq_take, Bytes.read_take hlen]
      exact (Bytes.read_write_self p.mem off value).symm
    · rw [← h.stored.upwards (by omega), List.prefix_iff_eq_take, Bytes.read_take hlen] at hbegin
      have hsame : p.mem.write off value = p.mem := by
        rw [hbegin]
        exact Bytes.write_read_self p.mem off value.length
      rw [hsame]
      exact reread_stored h.stored
  · refine Or.inl ⟨?_, fun hbegin => hlen (length_upwards ▸ hbegin.length_le)⟩
    rw [Bytes.memcpy, if_neg (by omega), if_neg (by simp only [off]; omega), Option.bind_none]

end LeafPage

namespace Btree

variable {K D : Type} {s s' : Btree K D} {x : ℕ} {q : K} {value : List UInt8}
  {L A B C C' I : List (K × List UInt8)} {xs pre post : List (ℕ × K)}
  {above : List (List (ℕ × K))} {z : ℕ × K} {c : K × List UInt8} {place place' : Place}

variable [LinearOrder K] (env : BtreeEnv K D)

/-- The call returns, and every other key is found with its value. -/
def Keeps (s : Btree K D) (L : List (K × List UInt8)) (q : K) (value : List UInt8)
    (place : Place) : Prop :=
  ∃ rc s', s.btreeInsert env q value place = some (rc, s') ∧ ∀ k v, (k, v) ∈ L → Reads env s' k v

theorem Adds.keeps (h : Adds env s L q value place) : Keeps env s L q value place := by
  obtain ⟨s', L', xs, above, hrun, -, hperm, hstand, -⟩ := h
  exact ⟨0, s', hrun, fun k v hmem =>
    hstand.reads env (hperm.mem_iff.mpr (List.mem_cons_of_mem _ hmem))⟩

theorem Hides.keeps (h : Hides env s L q value place) : Keeps env s L q value place := by
  obtain ⟨s', hrun, -, hreads⟩ := h
  exact ⟨0, s', hrun, hreads⟩

theorem Standing.aborted (h : Standing s L xs above) (ha : Aborted s s') :
    Standing s' L xs above := by
  have hunder : Under s L [] xs := h.leaves
  exact ⟨ha.ready, hunder.same (ha.same _), h.index.mono ha.root fun y l cs _ hc =>
    (ha.same l).twigAt le_rfl hc, h.rising, ha.height.trans h.height, h.levels⟩

theorem Aborted.keeps (rc : ℤ) (ha : Aborted s s') (h : Standing s L xs above)
    (hrun : s.btreeInsert env q value place = some (rc, s')) : Keeps env s L q value place :=
  ⟨rc, s', hrun, fun _ _ hmem => (h.aborted ha).reads env hmem⟩

/-! ## The leaf has room, or the key goes behind all others -/

/-- What lies from the body of the first item behind the key to the end of the block begins with
the value. -/
def Repeats (I : List (K × List UInt8)) (q : K) (value : List UInt8) : Prop :=
  ∃ C c C', I = C ++ c :: C' ∧ (∀ x ∈ C, x.1 < q) ∧ q < c.1 ∧
    value <+: (c :: C.reverse).flatMap Prod.snd

/-- Where the other values stay when the key gets a leaf of its own behind the leaf `v`: there is no
memory for the leaf, or the item fits it and it is linked if there is memory for the twigs. -/
def AppendSpares (s : Btree K D) (above : List (List (ℕ × K))) (v : ℕ) (value : List UInt8) : Prop :=
  ¬ NodeGranted env s.mallocs ∨ s.super.itemNeeded value.length ≤ s.super.nodeSpace ∧
    ∃ r, LinkRequests s 1 (names above) v r ∧
      (NodesGranted env (s.mallocs + 2) r → Takes s 1 above v)

/-- Where the other values stay when the leaf with the items `I` is split. -/
def SplitSpares (s : Btree K D) (above : List (List (ℕ × K))) (z : ℕ × K) (post : List (ℕ × K))
    (I : List (K × List UInt8)) (q : K) (value : List UInt8) : Prop :=
  ¬ NodeGranted env s.mallocs ∨ ∃ r, LinkRequests s 1 (names above) (post.headD z).1 r ∧
    -- The upper half is not linked, and there is no leaf behind it.
    (¬ NodesGranted env (s.mallocs + 2) r ∧ post = [] ∧ (2 ≤ I.length ∨ above = []) ∨
      NodesGranted env (s.mallocs + 2) r ∧ 2 ≤ I.length ∧ Takes s 1 above (post.headD z).1 ∧
        (s.super.Room (Geometry.halfFor I q) value ∧
            s.super.itemNeeded value.length ≤ s.super.nodeSpace ∨
          -- The half has no room, and there is no memory for a third leaf.
          ¬ s.super.Room (Geometry.halfFor I q) value ∧
            ¬ NodeGranted env (s.mallocs + 2 + 2 * r)))

/-- Where the values of the other keys stay. -/
def Spares (s : Btree K D) (L : List (K × List UInt8)) (q : K) (value : List UInt8)
    (place : Place) : Prop :=
  s.root = none ∧ (¬ NodeGranted env s.mallocs ∨
    s.super.itemNeeded value.length ≤ s.super.nodeSpace) ∨
  ∃ xs above pre z post A I B, Tree True s L xs above ∧ LeafFor s L xs q pre z post A I B ∧
    (place.size = value.length ∧ Repeats I q value ∨ place.size ≠ value.length ∧
      (s.super.Room I value ∧ s.super.itemNeeded value.length ≤ s.super.nodeSpace ∨
        ¬ s.super.Room I value ∧
          ((∀ x ∈ I, x.1 < q) ∧ AppendSpares env s above z.1 value ∨
            (∃ x ∈ I, q < x.1) ∧ SplitSpares env s above z post I q value)))

end Btree

end Carthage
