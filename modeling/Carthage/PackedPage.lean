import Carthage.LeafPage

/-!
# Packed leaf pages

A page is packed when the bodies of its items lie one below the other from the end of the
block, in item order, and `nh_free` is what heads and bodies leave. Insertion, removal and
split take packed pages to packed pages and act on the item list as expected, as far as they
stay inside the block: a removal reads the head behind the last one, a split the last item.
-/

namespace Carthage

theorem insertIdx_middle {α : Type} (A B : List α) (x : α) :
    (A ++ B).insertIdx A.length x = A ++ x :: B := by
  induction A with
  | nil => rfl
  | cons a A ih => simpa using ih

namespace LeafPage

variable {K : Type} {g : Geometry} {p : LeafPage K} {L A B : List (K × List UInt8)}
  {mem mem' : Bytes} {e d : ℕ} {key : K} {value : List UInt8}

def bodies (L : List (K × List UInt8)) : ℕ := (L.map fun x => x.2.length).sum

/-- The slots of items whose bodies are placed downwards from `e`. -/
def layout : ℕ → List (K × List UInt8) → List (LeafSlot K)
  | _, [] => []
  | e, x :: L => ⟨x.1, e - x.2.length, x.2.length⟩ :: layout (e - x.2.length) L

/-- The bodies are where `layout` puts them. -/
def Stored (mem : Bytes) : ℕ → List (K × List UInt8) → Prop
  | _, [] => True
  | e, x :: L => mem.read (e - x.2.length) x.2.length = x.2 ∧ Stored mem (e - x.2.length) L

structure Packed (g : Geometry) (p : LeafPage K) (L : List (K × List UInt8)) : Prop where
  slots : p.slots = layout g.blockSize L
  stored : Stored p.mem g.blockSize L
  room : g.bodyStart L.length + bodies L ≤ g.blockSize
  free : p.free + g.bodyStart L.length + bodies L = g.blockSize

@[simp] theorem bodies_nil : bodies ([] : List (K × List UInt8)) = 0 := rfl

@[simp] theorem bodies_cons (x : K × List UInt8) : bodies (x :: L) = x.2.length + bodies L := by
  simp [bodies]

@[simp] theorem bodies_append : bodies (A ++ B) = bodies A + bodies B := by simp [bodies]

@[simp] theorem length_layout (e : ℕ) : (layout e L).length = L.length := by
  induction L generalizing e with
  | nil => rfl
  | cons x L ih => simp [layout, ih]

theorem layout_append (e : ℕ) : layout e (A ++ B) = layout e A ++ layout (e - bodies A) B := by
  induction A generalizing e with
  | nil => rfl
  | cons x A ih => simp [layout, ih, Nat.sub_sub]

theorem layout_keys (e : ℕ) : (layout e L).map LeafSlot.key = L.map Prod.fst := by
  induction L generalizing e with
  | nil => rfl
  | cons x L ih => simp [layout, ih]

theorem layout_map_size (e : ℕ) :
    (layout e L).map LeafSlot.size = L.map (fun x => x.2.length) := by
  induction L generalizing e with
  | nil => rfl
  | cons x L ih => simp [layout, ih]

theorem layout_sizes (e : ℕ) :
    ((layout e L).map LeafSlot.size).sum = bodies L := by
  rw [layout_map_size, bodies]

theorem stored_append (e : ℕ) :
    Stored mem e (A ++ B) ↔ Stored mem e A ∧ Stored mem (e - bodies A) B := by
  induction A generalizing e with
  | nil => simp [Stored]
  | cons x A ih => simp [Stored, ih, Nat.sub_sub, and_assoc]

theorem Stored.congr (h : Stored mem e L) (hL : bodies L ≤ e)
    (heq : ∀ i, e - bodies L ≤ i → i < e → mem' i = mem i) : Stored mem' e L := by
  induction L generalizing e with
  | nil => trivial
  | cons x L ih =>
      rw [bodies_cons] at hL heq
      refine ⟨?_, ih h.2 (by omega) (fun i h1 h2 => heq i (by omega) (by omega))⟩
      rw [← h.1]
      simp only [h.1]
      rw [Bytes.read_congr (fun i hi => heq _ (by omega) (by omega))]
      exact h.1

theorem Stored.shift (h : Stored mem e L) (hL : d + bodies L ≤ e)
    (heq : ∀ i, e - bodies L ≤ i → i < e → mem' (i - d) = mem i) : Stored mem' (e - d) L := by
  induction L generalizing e with
  | nil => trivial
  | cons x L ih =>
      rw [bodies_cons] at hL heq
      have hcomm : e - d - x.2.length = e - x.2.length - d := by omega
      refine ⟨?_, ?_⟩
      · have hread : mem'.read (e - d - x.2.length) x.2.length =
            mem.read (e - x.2.length) x.2.length := by
          simp only [Bytes.read]
          refine List.map_congr_left fun i hi => ?_
          have hin : i < x.2.length := List.mem_range.mp hi
          rw [← heq (e - x.2.length + i) (by omega) (by omega)]
          congr 1
          omega
        rw [hread]
        exact h.1
      · rw [hcomm]
        exact ih h.2 (by omega) (fun i h1 h2 => heq i (by omega) (by omega))

theorem Stored.raise {e' : ℕ} (h : Stored mem e L) (he' : e' = e + d) (hL : bodies L ≤ e)
    (heq : ∀ i, e - bodies L ≤ i → i < e → mem' (i + d) = mem i) : Stored mem' e' L := by
  subst he'
  induction L generalizing e with
  | nil => trivial
  | cons x L ih =>
      rw [bodies_cons] at hL heq
      have hcomm : e + d - x.2.length = e - x.2.length + d := by omega
      refine ⟨?_, ?_⟩
      · have hread : mem'.read (e + d - x.2.length) x.2.length =
            mem.read (e - x.2.length) x.2.length := by
          simp only [Bytes.read]
          refine List.map_congr_left fun i hi => ?_
          have hin : i < x.2.length := List.mem_range.mp hi
          rw [← heq (e - x.2.length + i) (by omega) (by omega)]
          congr 1
          omega
        rw [hread]
        exact h.1
      · rw [hcomm]
        exact ih h.2 (by omega) (fun i h1 h2 => heq i (by omega) (by omega))

theorem moveOffsets_sub (hL : d + bodies L ≤ e) (he : e < 2 ^ 32) :
    moveOffsets (layout e L) (fun o => sub32 o d) = layout (e - d) L := by
  induction L generalizing e with
  | nil => rfl
  | cons x L ih =>
      rw [bodies_cons] at hL
      have hcomm : e - d - x.2.length = e - x.2.length - d := by omega
      have hsub : sub32 (e - x.2.length) d = e - x.2.length - d := sub32_eq (by omega) (by omega)
      have ih' := ih (e := e - x.2.length) (by omega) (by omega)
      rw [moveOffsets] at ih' ⊢
      rw [layout, layout, List.map_cons, ih', hcomm, hsub]

theorem moveOffsets_add (he : e + d < 2 ^ 32) (hL : bodies L ≤ e) :
    moveOffsets (layout e L) (fun o => add32 o d) = layout (e + d) L := by
  induction L generalizing e with
  | nil => rfl
  | cons x L ih =>
      rw [bodies_cons] at hL
      have hcomm : e + d - x.2.length = e - x.2.length + d := by omega
      have hadd : add32 (e - x.2.length) d = e - x.2.length + d := add32_eq (by omega)
      have ih' := ih (e := e - x.2.length) (by omega) (by omega)
      rw [moveOffsets] at ih' ⊢
      rw [layout, layout, List.map_cons, ih', hcomm, hadd]

theorem layout_last (h : L ≠ []) (he : bodies L ≤ e) :
    ∃ s, (layout e L)[L.length - 1]? = some s ∧ s.offset = e - bodies L := by
  induction L generalizing e with
  | nil => exact (h rfl).elim
  | cons x L ih =>
      rw [bodies_cons] at he
      cases L with
      | nil => exact ⟨_, rfl, by simp⟩
      | cons y L =>
          obtain ⟨s, hs, hoff⟩ := ih (List.cons_ne_nil y L) (by omega : _ ≤ e - x.2.length)
          refine ⟨s, hs, ?_⟩
          rw [hoff, bodies_cons (L := y :: L), Nat.sub_sub]

variable (g) in
theorem bodyStart_succ (n : ℕ) : g.bodyStart (n + 1) = g.bodyStart n + g.itemSize := by
  simp only [Geometry.bodyStart]
  ring

variable (g) in
theorem bodyStart_add (m n : ℕ) : g.bodyStart (m + n) = g.bodyStart m + n * g.itemSize := by
  simp only [Geometry.bodyStart]
  ring

theorem Packed.length (h : Packed g p L) : p.slots.length = L.length := by
  rw [h.slots, length_layout]

theorem Packed.free_lt (h : Packed g p L) (hb : g.blockSize < 2 ^ 32) : p.free < 2 ^ 32 := by
  have := h.free
  omega

theorem Packed.keys (h : Packed g p L) : p.keys = L.map Prod.fst := by
  rw [LeafPage.keys, h.slots, layout_keys]

theorem Packed.bodySize_drop (h : Packed g p (A ++ B)) (hb : g.blockSize < 2 ^ 32) :
    p.bodySize A.length p.slots.length = bodies B := by
  have hroom := h.room
  rw [bodies_append] at hroom
  have hdrop : p.slots.drop A.length = layout (g.blockSize - bodies A) B := by
    rw [h.slots, layout_append, List.drop_left' (length_layout _)]
  have htake : (layout (g.blockSize - bodies A) B).take (p.slots.length - A.length) =
      layout (g.blockSize - bodies A) B := by
    rw [h.length, List.take_of_length_le]
    simp
  rw [bodySize, hdrop, htake, layout_sizes, Nat.mod_eq_of_lt (by omega)]

theorem Packed.bodySize_take (h : Packed g p (A ++ B)) (hb : g.blockSize < 2 ^ 32) :
    p.bodySize 0 A.length = bodies A := by
  have hroom := h.room
  rw [bodies_append] at hroom
  have htake : (p.slots.drop 0).take (A.length - 0) = layout g.blockSize A := by
    rw [h.slots, layout_append, List.drop_zero, Nat.sub_zero, List.take_left' (length_layout _)]
  rw [bodySize, htake, layout_sizes, Nat.mod_eq_of_lt (by omega)]

theorem Packed.last (h : Packed g p L) (hne : L ≠ []) :
    ∃ s, p.slots[p.slots.length - 1]? = some s ∧ s.offset = g.blockSize - bodies L := by
  have hroom := h.room
  rw [h.length, h.slots]
  exact layout_last hne (by omega)

theorem Stored.unique {L' : List (K × List UInt8)} (h : Stored mem e L) (h' : Stored mem e L')
    (hl : layout e L = layout e L') : L = L' := by
  induction L generalizing e L' with
  | nil =>
      cases L' with
      | nil => rfl
      | cons y L' => simp [layout] at hl
  | cons x L ih =>
      cases L' with
      | nil => simp [layout] at hl
      | cons y L' =>
          simp only [layout, List.cons.injEq, LeafSlot.mk.injEq] at hl
          obtain ⟨⟨hkey, -, hsize⟩, hrest⟩ := hl
          have hvalue : x.2 = y.2 := by rw [← h.1, ← h'.1, hsize]
          obtain rfl : x = y := Prod.ext hkey hvalue
          rw [ih h.2 h'.2 hrest]

theorem Packed.unique {L' : List (K × List UInt8)} (h : Packed g p L) (h' : Packed g p L') :
    L = L' := h.stored.unique h'.stored (h.slots.symm.trans h'.slots)

theorem Packed.slot_eq {x : K × List UInt8} (h : Packed g p (A ++ x :: B)) :
    p.slots[A.length]? = some ⟨x.1, g.blockSize - bodies A - x.2.length, x.2.length⟩ := by
  rw [h.slots, layout_append, List.getElem?_append_right (by simp), length_layout, Nat.sub_self]
  rfl

theorem Packed.slot {x : K × List UInt8} (h : Packed g p (A ++ x :: B)) :
    ∃ slot, p.slots[A.length]? = some slot ∧ slot.size = x.2.length ∧
      p.mem.read slot.offset x.2.length = x.2 :=
  ⟨_, h.slot_eq, rfl, ((stored_append _).mp h.stored).2.1⟩

theorem packed_nil (hb : 16 ≤ g.blockSize) (mem : Bytes) :
    Packed g (⟨[], g.nodeSpace, mem⟩ : LeafPage K) [] := by
  refine ⟨rfl, trivial, ?_, ?_⟩
  · simpa [Geometry.bodyStart] using hb
  · simp only [Geometry.nodeSpace, Geometry.bodyStart, List.length_nil, bodies_nil]
    omega

theorem Packed.insert (h : Packed g p (A ++ B)) (hb : g.blockSize < 2 ^ 32)
    (hfree : g.itemSize + value.length ≤ p.free) :
    ∃ p', p.insert g A.length key value = some p' ∧ Packed g p' (A ++ (key, value) :: B) := by
  have hroom := h.room
  have hfreeq := h.free
  have hlen : p.slots.length = A.length + B.length := by rw [h.length, List.length_append]
  have hstart := bodyStart_succ g (A.length + B.length)
  rw [bodies_append, List.length_append] at hroom hfreeq
  have hsub : sub32 p.free (g.itemSize + value.length) = p.free - (g.itemSize + value.length) :=
    sub32_eq (by omega) hfree
  have hstored := (stored_append _).mp h.stored
  have hslots : ∀ S, S = layout (g.blockSize - bodies A - value.length) B →
      layout g.blockSize A ++ ⟨key, g.blockSize - bodies A - value.length, value.length⟩ :: S =
        layout g.blockSize (A ++ (key, value) :: B) := by
    rintro S rfl
    rw [layout_append]
    rfl
  have hroom' : g.bodyStart (A ++ (key, value) :: B).length +
      bodies (A ++ (key, value) :: B) ≤ g.blockSize := by
    rw [List.length_append, List.length_cons, ← Nat.add_assoc, bodies_append, bodies_cons, hstart]
    simp only
    omega
  have hfree' : p.free - (g.itemSize + value.length) + g.bodyStart
      (A ++ (key, value) :: B).length + bodies (A ++ (key, value) :: B) = g.blockSize := by
    rw [List.length_append, List.length_cons, ← Nat.add_assoc, bodies_append, bodies_cons, hstart]
    simp only
    omega
  by_cases hend : A.length < p.slots.length
  · obtain ⟨last, hlast, hoff⟩ := h.last (by rintro hnil; simp [h.slots, hnil, layout] at hend)
    rw [bodies_append] at hoff
    let dst := last.offset - value.length
    let mem₁ := p.mem.copy dst last.offset (bodies B)
    let mem₂ := mem₁.write (dst + bodies B) value
    have hmove : p.mem.memmove (g.bodyStart (p.slots.length + 1)) g.blockSize dst last.offset
        (bodies B) = some mem₁ := by
      apply Bytes.memmove_eq
      rw [hlen, hstart]
      simp only [dst]
      omega
    have hcpy : mem₁.memcpy (g.bodyStart (p.slots.length + 1)) g.blockSize (dst + bodies B)
        value = some mem₂ := by
      apply Bytes.memcpy_eq
      rw [hlen, hstart]
      simp only [dst]
      omega
    have hdst : dst + bodies B = g.blockSize - bodies A - value.length := by
      simp only [dst]
      omega
    refine ⟨⟨layout g.blockSize (A ++ (key, value) :: B),
      p.free - (g.itemSize + value.length), mem₂⟩, ?_, ⟨rfl, ?_, hroom', hfree'⟩⟩
    · have hlow : ¬ last.offset < value.length := by omega
      have htake : p.slots.take A.length = layout g.blockSize A := by
        rw [h.slots, layout_append, List.take_left' (length_layout _)]
      have hmoved : moveOffsets (p.slots.drop A.length) (fun o => sub32 o value.length) =
          layout (g.blockSize - bodies A - value.length) B := by
        rw [h.slots, layout_append, List.drop_left' (length_layout _),
          moveOffsets_sub (by omega) (by omega)]
      simp only [LeafPage.insert, if_pos hend, h.bodySize_drop hb, hlast, Option.bind_eq_bind,
        Option.bind_some, if_neg hlow, Option.pure_def, hsub]
      rw [hmove, Option.bind_some, hcpy, Option.bind_some, hdst, htake, hslots _ hmoved]
    · have hbelow : ∀ i, i < g.blockSize - bodies A - value.length → mem₂ i = mem₁ i := by
        intro i hi
        simp only [mem₂]
        rw [Bytes.write_of_lt (by omega)]
      have habove : ∀ i, g.blockSize - bodies A ≤ i → mem₂ i = p.mem i := by
        intro i hi
        simp only [mem₂, mem₁]
        rw [Bytes.write_of_ge (by omega), Bytes.copy, if_neg (by omega)]
      refine (stored_append _).mpr ⟨?_, ?_, ?_⟩
      · exact hstored.1.congr (by omega) (fun i h1 _ => habove i h1)
      · simp only [mem₂]
        rw [hdst]
        exact Bytes.read_write_self _ _ _
      · have htail : Stored mem₂ (g.blockSize - bodies A - value.length) B := by
          refine hstored.2.shift (by omega) (fun i h1 h2 => ?_)
          rw [hbelow _ (by omega)]
          simp only [mem₁]
          rw [Bytes.copy, if_pos (by omega)]
          congr 1
          omega
        exact htail
  · have hB : B = [] := List.length_eq_zero_iff.mp (by omega)
    subst hB
    simp only [bodies_nil, List.length_nil, Nat.add_zero] at hroom hfreeq hlen hstart
    have hoff : add32 (sub32 p.free value.length) (g.bodyStart p.slots.length) =
        g.blockSize - bodies A - value.length := by
      rw [sub32_eq (by omega) (by omega), hlen, add32_eq (by omega)]
      omega
    have hcpy : p.mem.memcpy (g.bodyStart (p.slots.length + 1)) g.blockSize
        (g.blockSize - bodies A - value.length) value =
          some (p.mem.write (g.blockSize - bodies A - value.length) value) := by
      apply Bytes.memcpy_eq
      rw [hlen, hstart]
      omega
    refine ⟨⟨layout g.blockSize (A ++ [(key, value)]), p.free - (g.itemSize + value.length),
      p.mem.write (g.blockSize - bodies A - value.length) value⟩, ?_, ⟨rfl, ?_, hroom', hfree'⟩⟩
    · simp only [LeafPage.insert, if_neg hend, if_pos hlen.symm, hoff, hcpy, Option.bind_eq_bind,
        Option.bind_some, Option.pure_def, hsub]
      rw [h.slots, List.append_nil, hslots [] rfl]
    · refine (stored_append _).mpr ⟨?_, Bytes.read_write_self _ _ _, trivial⟩
      refine hstored.1.congr (by omega) (fun i h1 h2 => ?_)
      exact Bytes.write_of_ge (by omega)

theorem Packed.remove {x : K × List UInt8} (h : Packed g p (A ++ x :: B))
    (hb : g.blockSize < 2 ^ 32) (hm : g.HeadsMove (A ++ x :: B).length A.length) :
    ∃ p', p.remove g A.length = some p' ∧ Packed g p' (A ++ B) := by
  rw [← h.length] at hm
  have hroom := h.room
  have hfreeq := h.free
  have hlen : p.slots.length = A.length + B.length + 1 := by
    rw [h.length, List.length_append, List.length_cons, Nat.add_assoc]
  have hstart := bodyStart_succ g (A.length + B.length)
  rw [List.length_append, List.length_cons, ← Nat.add_assoc, bodies_append, bodies_cons,
    hstart] at hroom hfreeq
  have hstored := (stored_append _).mp h.stored
  let slot : LeafSlot K := ⟨x.1, g.blockSize - bodies A - x.2.length, x.2.length⟩
  have hslots : p.slots = layout g.blockSize A ++ slot ::
      layout (g.blockSize - bodies A - x.2.length) B := by
    rw [h.slots, layout_append]
    rfl
  have hslot : p.slots[A.length]? = some slot := by
    rw [hslots, List.getElem?_append_right (by simp)]
    simp
  have htake : p.slots.take A.length = layout g.blockSize A := by
    rw [hslots, List.take_left' (length_layout _)]
  have hadd : add32 p.free (g.itemSize + x.2.length) = p.free + (g.itemSize + x.2.length) :=
    add32_eq (by omega)
  have hroom' : g.bodyStart (A ++ B).length + bodies (A ++ B) ≤ g.blockSize := by
    rw [List.length_append, bodies_append]
    omega
  have hfree' : p.free + (g.itemSize + x.2.length) + g.bodyStart (A ++ B).length +
      bodies (A ++ B) = g.blockSize := by
    rw [List.length_append, bodies_append]
    omega
  by_cases hend : A.length + 1 < p.slots.length
  · obtain ⟨last, hlast, hoff⟩ := h.last (by simp)
    rw [bodies_append, bodies_cons] at hoff
    let mem₁ := p.mem.copy (last.offset + x.2.length) last.offset (bodies B)
    have hmove : p.mem.memmove (g.bodyStart p.slots.length) g.blockSize
        (last.offset + x.2.length) last.offset (bodies B) = some mem₁ := by
      apply Bytes.memmove_eq
      rw [hlen, hstart]
      omega
    have hsize : p.bodySize (A.length + 1) p.slots.length = bodies B := by
      have h' : Packed g p ((A ++ [x]) ++ B) := by simpa using h
      simpa using h'.bodySize_drop hb
    have hmoved : moveOffsets (p.slots.drop (A.length + 1)) (fun o => add32 o x.2.length) =
        layout (g.blockSize - bodies A) B := by
      have hdrop : p.slots.drop (A.length + 1) =
          layout (g.blockSize - bodies A - x.2.length) B := by
        rw [hslots, ← List.drop_drop, List.drop_left' (length_layout _)]
        rfl
      rw [hdrop, moveOffsets_add (by omega) (by omega)]
      congr 1
      omega
    refine ⟨⟨layout g.blockSize (A ++ B), p.free + (g.itemSize + x.2.length), mem₁⟩, ?_,
      ⟨rfl, ?_, hroom', hfree'⟩⟩
    · simp only [LeafPage.remove, hslot, Option.bind_eq_bind, Option.bind_some, if_pos hend,
        hlast, hsize, Option.pure_def, slot, hadd]
      rw [hmove, Option.bind_some, if_pos (hm hend), htake, hmoved, layout_append]
    · refine (stored_append _).mpr ⟨?_, ?_⟩
      · refine hstored.1.congr (by omega) (fun i h1 h2 => ?_)
        simp only [mem₁]
        rw [Bytes.copy, if_neg (by omega)]
      · refine hstored.2.2.raise (d := x.2.length) (by omega) (by omega) (fun i h1 h2 => ?_)
        simp only [mem₁]
        rw [Bytes.copy, if_pos (by omega)]
        congr 1
        omega
  · have hB : B = [] := List.length_eq_zero_iff.mp (by omega)
    subst hB
    rw [List.append_nil] at hroom' hfree' ⊢
    refine ⟨⟨layout g.blockSize A, p.free + (g.itemSize + x.2.length), p.mem⟩, ?_,
      ⟨rfl, hstored.1, hroom', hfree'⟩⟩
    simp only [LeafPage.remove, hslot, Option.bind_eq_bind, Option.bind_some, if_neg hend,
      Option.pure_def, slot, hadd, htake]

theorem headsMove_of_remove {p' : LeafPage K} {index : ℕ} (hrun : p.remove g index = some p') :
    g.HeadsMove p.slots.length index := by
  intro hend
  unfold LeafPage.remove at hrun
  obtain ⟨slot, -, hrun⟩ := Option.bind_eq_some_iff.mp hrun
  dsimp only at hrun
  rw [if_pos hend] at hrun
  obtain ⟨last, -, hrun⟩ := Option.bind_eq_some_iff.mp hrun
  obtain ⟨mem, -, hrun⟩ := Option.bind_eq_some_iff.mp hrun
  by_contra hlow
  rw [if_neg hlow] at hrun
  cases hrun

/-- The new pages hold the two halves. -/
theorem Packed.split {right : LeafPage K} (h : Packed g p (A ++ B)) (hr : Packed g right [])
    (hb : g.blockSize < 2 ^ 32) (hA : A.length = (A ++ B).length / 2) (hne : A ++ B ≠ []) :
    ∃ l r, p.split g right = some (l, r) ∧ Packed g l A ∧ Packed g r B := by
  have hroom := h.room
  have hfreeq := h.free
  have hroomr := hr.room
  have hfreer := hr.free
  have hlen := h.length
  have hstart := bodyStart_add g A.length B.length
  have hstart0 := bodyStart_add g 0 B.length
  rw [Nat.zero_add] at hstart0
  have hzero : g.bodyStart 0 ≤ g.bodyStart A.length := by
    have := bodyStart_add g 0 A.length
    rw [Nat.zero_add] at this
    omega
  simp only [List.length_nil, bodies_nil, Nat.add_zero] at hroomr hfreer
  have hstored := (stored_append _).mp h.stored
  obtain ⟨last, hlast, hoff⟩ := h.last hne
  have hhalf : p.slots.length / 2 = A.length := by rw [hlen, hA]
  have hcount : p.slots.length - A.length = B.length := by
    rw [hlen, List.length_append]
    omega
  rw [List.length_append, bodies_append] at hroom hfreeq
  rw [bodies_append] at hoff
  let body := p.mem.read last.offset (bodies B)
  let mem := right.mem.write (g.blockSize - bodies B) body
  have hcpy : right.mem.memcpy (g.bodyStart B.length) g.blockSize (g.blockSize - bodies B) body =
      some mem := by
    apply Bytes.memcpy_eq
    simp only [body, Bytes.length_read]
    omega
  have htake : p.slots.take A.length = layout g.blockSize A := by
    rw [h.slots, layout_append, List.take_left' (length_layout _)]
  have hmoved : moveOffsets (p.slots.drop A.length) (fun o => add32 o (bodies A)) =
      layout g.blockSize B := by
    rw [h.slots, layout_append, List.drop_left' (length_layout _),
      moveOffsets_add (by omega) (by omega)]
    congr 1
    omega
  have hlfree : add32 (add32 p.free (B.length * g.itemSize)) (bodies B) =
      p.free + B.length * g.itemSize + bodies B := by
    rw [add32_eq (a := p.free) (by omega), add32_eq (by omega)]
  have hrfree : sub32 (sub32 right.free (B.length * g.itemSize)) (bodies B) =
      right.free - B.length * g.itemSize - bodies B := by
    have hle : B.length * g.itemSize + bodies B ≤ right.free := by omega
    rw [sub32_eq (a := right.free) (by omega) (by omega), sub32_eq (by omega) (by omega)]
  refine ⟨⟨layout g.blockSize A, p.free + B.length * g.itemSize + bodies B, p.mem⟩,
    ⟨layout g.blockSize B, right.free - B.length * g.itemSize - bodies B, mem⟩, ?_,
    ⟨rfl, hstored.1, ?_, ?_⟩, ⟨rfl, ?_, ?_, ?_⟩⟩
  · have hlow : ¬ last.offset + bodies B > g.blockSize := by omega
    simp only [LeafPage.split, Option.bind_eq_bind, hhalf, hcount, h.bodySize_drop hb,
      h.bodySize_take hb, Option.pure_def, htake, hmoved, hlfree, hrfree]
    simp only [splitBodies, hlast, Option.bind_eq_bind, Option.bind_some, if_neg hlow]
    rw [hcpy, Option.bind_some]
  · omega
  · simp only
    omega
  · have hread : ∀ i, i < bodies B →
        mem (g.blockSize - bodies B + i) = p.mem (last.offset + i) := by
      intro i hi
      have hat : (mem.read (g.blockSize - bodies B) (bodies B))[i]? =
          (p.mem.read last.offset (bodies B))[i]? := by
        have hself : mem.read (g.blockSize - bodies B) body.length = body :=
          Bytes.read_write_self _ _ _
        rw [Bytes.length_read] at hself
        rw [hself]
      simpa [Bytes.read, hi] using hat
    refine hstored.2.raise (d := bodies A) (by omega) (by omega) (fun i h1 h2 => ?_)
    have := hread (i + bodies A - (g.blockSize - bodies B)) (by omega)
    rw [show g.blockSize - bodies B + (i + bodies A - (g.blockSize - bodies B)) = i + bodies A by
      omega] at this
    refine this.trans ?_
    congr 1
    omega
  · omega
  · simp only
    omega

theorem Packed.insert_at (h : Packed g p L) (hb : g.blockSize < 2 ^ 32) {index : ℕ}
    (hi : index ≤ L.length) (hfree : g.itemSize + value.length ≤ p.free) :
    ∃ p', p.insert g index key value = some p' ∧
      Packed g p' (L.insertIdx index (key, value)) := by
  have hcut : L = L.take index ++ L.drop index := (List.take_append_drop index L).symm
  have hlen : (L.take index).length = index := List.length_take_of_le hi
  have hinsert := insertIdx_middle (L.take index) (L.drop index) (key, value)
  rw [← hcut, hlen] at hinsert
  rw [hcut] at h
  obtain ⟨p', hp, hpacked⟩ := h.insert hb hfree
  rw [hlen] at hp
  rw [hinsert]
  exact ⟨p', hp, hpacked⟩

theorem Packed.remove_at (h : Packed g p L) (hb : g.blockSize < 2 ^ 32) {index : ℕ}
    (hi : index < L.length) (hm : g.HeadsMove L.length index) :
    ∃ p', p.remove g index = some p' ∧ Packed g p' (L.eraseIdx index) := by
  have hcut : L = L.take index ++ L[index] :: L.drop (index + 1) := by
    rw [← List.drop_eq_getElem_cons hi, List.take_append_drop]
  have hlen : (L.take index).length = index := List.length_take_of_le hi.le
  rw [hcut] at h hm
  have hp := h.remove hb (by rwa [hlen])
  rw [hlen] at hp
  rw [List.eraseIdx_eq_take_drop_succ]
  exact hp

theorem Packed.remove_iff (h : Packed g p L) (hb : g.blockSize < 2 ^ 32) {index : ℕ}
    (hi : index < L.length) :
    (∃ p', p.remove g index = some p' ∧ Packed g p' (L.eraseIdx index)) ↔
      g.HeadsMove L.length index := by
  refine ⟨?_, h.remove_at hb hi⟩
  rintro ⟨p', hrun, -⟩
  exact h.length ▸ headsMove_of_remove hrun

theorem Packed.split_iff (h : Packed g p L) (hb : g.blockSize < 2 ^ 32) (mem : Bytes) :
    (∃ left right, p.split g ⟨[], g.nodeSpace, mem⟩ = some (left, right) ∧
      Packed g left (L.take (L.length / 2)) ∧ Packed g right (L.drop (L.length / 2))) ↔ L ≠ [] := by
  constructor
  · rintro ⟨left, right, hrun, -⟩ rfl
    have hslots : p.slots = [] := h.slots
    simp [LeafPage.split, splitBodies, hslots] at hrun
  · intro hne
    have hsize : 16 ≤ g.blockSize := by
      have hroom := h.room
      rw [Geometry.bodyStart] at hroom
      omega
    have hcut : L.take (L.length / 2) ++ L.drop (L.length / 2) = L := List.take_append_drop _ _
    have hlen : (L.take (L.length / 2)).length = L.length / 2 :=
      List.length_take_of_le (Nat.div_le_self _ _)
    rw [← hcut] at h hne
    apply h.split (packed_nil hsize mem) hb _ hne
    rw [hcut, hlen]

/-- Insertion, removal and split of a packed page act on its item list: insertion always, removal
exactly if it takes the last item or the block has room for one more head, and split exactly if
there is an item. -/
theorem packed_items (h : Packed g p L) (hb : g.blockSize < 2 ^ 32) :
    (∀ index key value, index ≤ L.length → g.itemSize + value.length ≤ p.free →
      ∃ p', p.insert g index key value = some p' ∧
        Packed g p' (L.insertIdx index (key, value)) ∧
        ((∃ p'', p'.remove g index = some p'' ∧ Packed g p'' L) ↔
          g.HeadsMove (L.length + 1) index)) ∧
    (∀ index < L.length,
      (∃ p', p.remove g index = some p' ∧ Packed g p' (L.eraseIdx index)) ↔
        g.HeadsMove L.length index) ∧
    (∀ mem, (∃ left right, p.split g ⟨[], g.nodeSpace, mem⟩ = some (left, right) ∧
      Packed g left (L.take (L.length / 2)) ∧ Packed g right (L.drop (L.length / 2))) ↔
        L ≠ []) := by
  refine ⟨?_, fun index hi => h.remove_iff hb hi, h.split_iff hb⟩
  intro index key value hi hfree
  obtain ⟨p', hinsert, hp'⟩ : ∃ p', p.insert g index key value = some p' ∧
      Packed g p' (L.insertIdx index (key, value)) := h.insert_at hb hi hfree
  have hcount : (L.insertIdx index (key, value)).length = L.length + 1 :=
    List.length_insertIdx_of_le_length hi _
  have hremove := hp'.remove_iff hb (by rw [hcount]; exact Nat.lt_succ_of_le hi)
  rw [List.eraseIdx_insertIdx_self, hcount] at hremove
  exact ⟨p', hinsert, hp', hremove⟩

/-- A block of 80 bytes with three items, the bodies of the first two from byte 76 on. -/
def pageThree : LeafPage ℕ :=
  ⟨[⟨1, 78, 2⟩, ⟨2, 76, 2⟩, ⟨3, 76, 0⟩], 24, Bytes.write (fun _ => 0) 76 [9, 8, 7, 6]⟩

theorem pageThree_packed :
    Packed ⟨80, 4, 4, 2⟩ pageThree [(1, [7, 6]), (2, [9, 8]), (3, [])] :=
  ⟨rfl, ⟨rfl, rfl, rfl, trivial⟩, by decide, by decide⟩

/-- An insertion and its removal, a removal of the first item, and a split. -/
theorem packed_items_three :
    (∃ p' p'', pageThree.insert ⟨80, 4, 4, 2⟩ 1 4 [5, 5] = some p' ∧
      p'.remove ⟨80, 4, 4, 2⟩ 1 = some p'' ∧
      Packed ⟨80, 4, 4, 2⟩ p'' [(1, [7, 6]), (2, [9, 8]), (3, [])]) ∧
    (∃ p', pageThree.remove ⟨80, 4, 4, 2⟩ 0 = some p' ∧
      Packed ⟨80, 4, 4, 2⟩ p' [(2, [9, 8]), (3, [])]) ∧
    ∃ left right, pageThree.split ⟨80, 4, 4, 2⟩ ⟨[], 64, fun _ => 0⟩ = some (left, right) ∧
      Packed ⟨80, 4, 4, 2⟩ left [(1, [7, 6])] ∧
      Packed ⟨80, 4, 4, 2⟩ right [(2, [9, 8]), (3, [])] := by
  obtain ⟨hinsert, hremove, hsplit⟩ := packed_items pageThree_packed (by decide)
  refine ⟨?_, (hremove 0 (by decide)).mpr (by decide), (hsplit fun _ => 0).mpr (by decide)⟩
  obtain ⟨p', hp', -, hback⟩ := hinsert 1 4 [5, 5] (by decide) (by decide)
  obtain ⟨p'', hp'', hpacked⟩ := hback.mpr (by decide)
  exact ⟨p', p'', hp', hp'', hpacked⟩

/-- Eight items without bodies fill a block of 112 bytes: there is no ninth head to read. An empty
page has no last item. -/
theorem packed_items_full :
    (∃ L : List (ℕ × List UInt8), ∃ p : LeafPage ℕ, Packed ⟨112, 4, 4, 4⟩ p L ∧ L.length = 8 ∧
      p.remove ⟨112, 4, 4, 4⟩ 0 = none) ∧
    ∃ p : LeafPage ℕ, Packed ⟨112, 4, 4, 4⟩ p [] ∧
      p.split ⟨112, 4, 4, 4⟩ ⟨[], 96, fun _ => 0⟩ = none := by
  refine ⟨⟨(List.range 8).map fun k => (k, []),
    ⟨(List.range 8).map fun k => ⟨k, 112, 0⟩, 0, fun _ => 0⟩, ⟨rfl, ?_, by decide, by decide⟩,
    rfl, rfl⟩, ⟨[], 96, fun _ => 0⟩, packed_nil (by decide) _, rfl⟩
  exact ⟨rfl, rfl, rfl, rfl, rfl, rfl, rfl, rfl, trivial⟩

end LeafPage

end Carthage
