import Carthage.Strbuf
import Mathlib.Data.List.DropRight

/-!
# Edits of a string buffer

The first `size` bytes of an allocated string buffer change like a list.
-/

namespace Carthage

variable {env : Allocator} {s : Strbuf} {mem : Bytes} {L bytes : List UInt8} {n : ℕ}

theorem alignUp_ge {x align : ℕ} (ha : 0 < align) (h : x + (align - 1) < 2 ^ 64) :
    x ≤ alignUp x align ∧ alignUp x align < 2 ^ 64 := by
  have hmod : (x + (align - 1)) % align < align := Nat.mod_lt _ ha
  unfold alignUp add64
  rw [if_pos h]
  omega

theorem strbufCapacity_ge (h : n + 1023 < 2 ^ 64) :
    n ≤ strbufCapacity n ∧ strbufCapacity n < 2 ^ 64 := by
  unfold strbufCapacity
  split_ifs <;> exact alignUp_ge (by omega) (by omega)

namespace Strbuf

theorem resize_zero (hb : s.blob ≠ none) : s.resize env 0 =
    some (-1, { s with blob := none, freed := true, requests := s.requests + 1 }) := by
  obtain ⟨mem, hm⟩ := Option.ne_none_iff_exists'.mp hb
  unfold resize
  rw [hm, if_neg (fun hc => Bool.noConfusion hc.1), if_pos ⟨rfl, rfl⟩]

theorem resize_eq (hf : s.blob = none → s.freed = false) (hn : s.blob ≠ none → n ≠ 0) :
    s.resize env n = some (if env.granted s.requests then (0, { s with
      blob := some fun i =>
        if i < min s.blksz n then s.blob.getD (env.uninit s.requests) i
        else env.uninit s.requests i,
      blksz := n, requests := s.requests + 1 }) else (-1, { s with requests := s.requests + 1 }))
    := by
  have hheld : ¬ (s.blob.isNone ∧ s.freed) := by
    rintro ⟨hnone, hfreed⟩
    rw [hf (Option.isNone_iff_eq_none.mp hnone)] at hfreed
    cases hfreed
  have hsome : ¬ (s.blob.isSome ∧ n = 0) := fun hc =>
    hn (Option.isSome_iff_ne_none.mp hc.1) hc.2
  unfold resize
  rw [if_neg hheld, if_neg hsome]
  split_ifs <;> rfl

theorem store_eq (hm : s.blob = some mem) {dst : ℕ} (h : dst + bytes.length ≤ s.blksz) :
    s.store dst bytes = some { s with blob := some (mem.write dst bytes) } := by
  unfold store
  split_ifs with hb
  · rw [List.length_eq_zero_iff.mp hb, Bytes.write_nil, ← hm]
  · simp only [hm, Bytes.memcpy_eq ⟨Nat.zero_le _, h⟩, Option.bind_eq_bind, Option.bind_some,
      Option.pure_def]

theorem move_eq (hm : s.blob = some mem) {dst src : ℕ} (hs : src + n ≤ s.blksz)
    (hd : dst + n ≤ s.blksz) :
    s.move dst src n = some { s with blob := some (mem.copy dst src n) } := by
  unfold move
  split_ifs with hn
  · rw [hn, Bytes.copy_zero, ← hm]
  · simp only [hm, Bytes.memmove_eq ⟨Nat.zero_le _, hs, Nat.zero_le _, hd⟩, Option.bind_eq_bind,
      Option.bind_some, Option.pure_def]

theorem terminate_eq (hm : s.blob = some mem) (n : ℕ) : s.terminate n = some { s with
    blob := some (Function.update mem n 0), size := n, overrun := s.overrun || s.blksz ≤ n } := by
  simp only [terminate, hm, Option.bind_eq_bind, Option.bind_some, Option.pure_def]

end Strbuf

/-- An allocated buffer whose first `size` bytes are `L`. -/
structure StrbufHolds (s : Strbuf) (L : List UInt8) : Prop where
  blob : ∃ mem, s.blob = some mem ∧ mem.read 0 s.size = L
  size : s.size ≤ s.blksz
  small : s.blksz < 2 ^ 64

theorem StrbufHolds.length (h : StrbufHolds s L) : L.length = s.size := by
  obtain ⟨mem, -, rfl⟩ := h.blob
  exact Bytes.length_read

theorem StrbufHolds.reserve (h : StrbufHolds s L) (hg : ∀ n, env.granted n = true)
    (hn : n + 1023 < 2 ^ 64) : ∃ s', s.reserve env n = some (0, s') ∧ StrbufHolds s' L ∧
      s'.size = s.size ∧ n ≤ s'.blksz := by
  obtain ⟨mem, hm, hL⟩ := h.blob
  have hsize := h.size
  unfold Strbuf.reserve
  split_ifs with hlt
  · obtain ⟨hge, hsmall⟩ := strbufCapacity_ge hn
    have hfits : s.size ≤ strbufCapacity n := by omega
    rw [Strbuf.resize_eq (fun hc => (nomatch hm.symm.trans hc)) fun _ => by omega, hg, if_pos rfl,
      hm]
    refine ⟨_, rfl, ⟨⟨_, rfl, ?_⟩, hfits, hsmall⟩, rfl, hge⟩
    rw [← hL]
    apply Bytes.read_congr
    intro i hi
    have hi' : i < s.size := hi
    exact if_pos (by rw [Nat.zero_add]; omega)
  · exact ⟨s, rfl, h, rfl, by omega⟩

theorem strbufHolds_terminate (hm : s.blob = some mem) (hn : n ≤ s.blksz)
    (hsmall : s.blksz < 2 ^ 64) (hL : mem.read 0 n = L) :
    ∃ s', s.terminate n = some s' ∧ StrbufHolds s' L := by
  refine ⟨_, Strbuf.terminate_eq hm n, ⟨⟨_, rfl, ?_⟩, hn, hsmall⟩⟩
  rw [← hL]
  exact Bytes.read_update (Nat.zero_add n).le 0

/-! ## Growing edits -/

theorem strbufSet_spec (h : StrbufHolds s L) (hg : ∀ n, env.granted n = true)
    (hn : bytes.length + 1023 < 2 ^ 64) :
    ∃ s', strbufSet env s bytes = some (0, s') ∧ StrbufHolds s' bytes := by
  obtain ⟨s₁, hres, h₁, -, hle⟩ := h.reserve hg hn
  obtain ⟨mem, hm, -⟩ := h₁.blob
  have hstore : s₁.store 0 bytes = some { s₁ with blob := some (mem.write 0 bytes) } :=
    Strbuf.store_eq hm (by omega)
  obtain ⟨s', hterm, h'⟩ := strbufHolds_terminate (s := { s₁ with blob := some (mem.write 0 bytes) })
    rfl hle h₁.small (Bytes.read_write_self _ _ _)
  refine ⟨s', ?_, h'⟩
  simp only [strbufSet, hres, hstore, hterm, ne_eq, not_true_eq_false, if_false,
    Option.bind_eq_bind, Option.bind_some, Option.pure_def]

theorem read_open_gap (mem : Bytes) (bytes : List UInt8) {size index : ℕ} (hi : index ≤ size) :
    ((mem.copy (index + bytes.length) index (size - index)).write index bytes).read 0
      (size + bytes.length) =
      (mem.read 0 size).take index ++ bytes ++ (mem.read 0 size).drop index := by
  have hsplit : size + bytes.length = index + (bytes.length + (size - index)) := by omega
  rw [hsplit, Bytes.read_add, Bytes.read_add, Bytes.read_take hi, Bytes.read_drop,
    Nat.zero_add, Bytes.read_write_outside (Or.inl (by omega)),
    Bytes.read_copy_outside (Or.inl (by omega)), Bytes.read_write_self,
    Bytes.read_write_outside (Or.inr (by omega)),
    Bytes.read_copy_inside (by omega) (by omega), List.append_assoc]
  congr 3
  omega

theorem strbufAppend_spec (h : StrbufHolds s L) (hg : ∀ n, env.granted n = true)
    (hn : L.length + bytes.length + 1023 < 2 ^ 64) :
    ∃ s', strbufAppend env s bytes = some (0, s') ∧ StrbufHolds s' (L ++ bytes) := by
  rw [h.length] at hn
  have hadd : add64 s.size bytes.length = s.size + bytes.length := add64_eq (by omega)
  obtain ⟨s₁, hres, h₁, hsize, hle⟩ := h.reserve hg hn
  obtain ⟨mem, hm, hL⟩ := h₁.blob
  rw [hsize] at hL
  have hstore : s₁.store s₁.size bytes =
      some { s₁ with blob := some (mem.write s₁.size bytes) } :=
    Strbuf.store_eq hm (by omega)
  have hread : (mem.write s₁.size bytes).read 0 (s.size + bytes.length) = L ++ bytes := by
    rw [hsize, Bytes.read_add, Nat.zero_add, Bytes.read_write_self,
      Bytes.read_write_outside (Or.inl (by omega)), hL]
  obtain ⟨s', hterm, h'⟩ := strbufHolds_terminate
    (s := { s₁ with blob := some (mem.write s₁.size bytes) }) rfl hle h₁.small hread
  refine ⟨s', ?_, h'⟩
  simp only [strbufAppend, hadd, hres, hstore, hterm, ne_eq, not_true_eq_false, if_false,
    Option.bind_eq_bind, Option.bind_some, Option.pure_def]

theorem strbufPrepend_spec (h : StrbufHolds s L) (hg : ∀ n, env.granted n = true)
    (hn : L.length + bytes.length + 1023 < 2 ^ 64) :
    ∃ s', strbufPrepend env s bytes = some (0, s') ∧ StrbufHolds s' (bytes ++ L) := by
  rw [h.length] at hn
  have hadd : add64 s.size bytes.length = s.size + bytes.length := add64_eq (by omega)
  obtain ⟨s₁, hres, h₁, hsize, hle⟩ := h.reserve hg hn
  obtain ⟨mem, hm, hL⟩ := h₁.blob
  let mem₁ := mem.copy bytes.length 0 s₁.size
  have hmove : s₁.move bytes.length 0 s₁.size = some { s₁ with blob := some mem₁ } :=
    Strbuf.move_eq hm (by omega) (by omega)
  have hstore : Strbuf.store { s₁ with blob := some mem₁ } 0 bytes =
      some { s₁ with blob := some (mem₁.write 0 bytes) } :=
    Strbuf.store_eq rfl (by change 0 + bytes.length ≤ s₁.blksz; omega)
  have hread : (mem₁.write 0 bytes).read 0 (s.size + bytes.length) = bytes ++ L := by
    have hgap := read_open_gap mem bytes (Nat.zero_le s₁.size)
    rw [Nat.zero_add, Nat.sub_zero, hL, hsize, List.take_zero, List.drop_zero,
      List.nil_append] at hgap
    exact hsize ▸ hgap
  obtain ⟨s', hterm, h'⟩ := strbufHolds_terminate
    (s := { s₁ with blob := some (mem₁.write 0 bytes) }) rfl hle h₁.small hread
  refine ⟨s', ?_, h'⟩
  simp only [strbufPrepend, hadd, hres, hmove, hstore, hterm, ne_eq, not_true_eq_false, if_false,
    Option.bind_eq_bind, Option.bind_some, Option.pure_def]

def insertBytes (L : List UInt8) (index : ℕ) (bytes : List UInt8) : List UInt8 :=
  L.take index ++ List.replicate (index - L.length) 32 ++ bytes ++ L.drop index

theorem insertedSize_eq {size index : ℕ} (h : max size index + n < 2 ^ 64) :
    (if index > size then add64 (add64 size n) (index - size) else add64 size n) =
      max size index + n := by
  rw [add64_eq (a := size) (by omega)]
  split_ifs with hgt
  · rw [add64_eq (by omega)]
    omega
  · omega

/-- An insertion once there is room. -/
theorem strbufInsert_reserved {index : ℕ} {s₁ : Strbuf} (h₁ : StrbufHolds s₁ L)
    (hn : max s.size index + bytes.length < 2 ^ 64)
    (hres : s.reserve env (max s.size index + bytes.length) = some (0, s₁)) (hsize : s₁.size = s.size)
    (hle : max s.size index + bytes.length ≤ s₁.blksz) :
    ∃ s', strbufInsert env s index bytes = some (0, s') ∧
      StrbufHolds s' (insertBytes L index bytes) := by
  have hlen := h₁.length
  let size := max s.size index + bytes.length
  have hadd : (if index > s.size then add64 (add64 s.size bytes.length) (index - s.size)
      else add64 s.size bytes.length) = size := insertedSize_eq hn
  replace hres : s.reserve env size = some (0, s₁) := hres
  replace hle : size ≤ s₁.blksz := hle
  obtain ⟨mem, hm, hL⟩ := h₁.blob
  by_cases hgt : index > s.size
  · let mem₁ := mem.write s₁.size (List.replicate (index - s₁.size) 32)
    have hfill : s₁.store s₁.size (List.replicate (index - s₁.size) 32) =
        some { s₁ with blob := some mem₁ } :=
      Strbuf.store_eq hm (by rw [List.length_replicate]; omega)
    have hstore : Strbuf.store { s₁ with blob := some mem₁ } index bytes =
        some { s₁ with blob := some (mem₁.write index bytes) } :=
      Strbuf.store_eq rfl (by change index + bytes.length ≤ s₁.blksz; omega)
    have hread : (mem₁.write index bytes).read 0 size = insertBytes L index bytes := by
      have hgap : index - s₁.size = index - L.length := by omega
      have hsplit : size = s₁.size + (index - L.length) + bytes.length := by omega
      have hidx : s₁.size + (index - L.length) = index := by omega
      have hfilled : mem₁.read s₁.size (index - L.length) =
          List.replicate (index - L.length) 32 := by
        have hself := Bytes.read_write_self mem s₁.size (List.replicate (index - s₁.size) 32)
        rw [List.length_replicate] at hself
        rw [← hgap]
        exact hself
      rw [hsplit, Bytes.read_add, Nat.zero_add, hidx, Bytes.read_write_self,
        Bytes.read_write_outside (Or.inl (by omega)), ← hidx, Bytes.read_add, Nat.zero_add,
        hfilled, Bytes.read_write_outside (Or.inl (by omega)), hL, insertBytes, hidx,
        List.take_of_length_le (by omega), List.drop_of_length_le (by omega), List.append_nil]
    obtain ⟨s', hterm, h'⟩ := strbufHolds_terminate
      (s := { s₁ with blob := some (mem₁.write index bytes) }) rfl hle h₁.small hread
    refine ⟨s', ?_, h'⟩
    have hgt₁ : index > s₁.size := by omega
    simp only [strbufInsert, hadd, hres, if_pos hgt₁, hfill, hstore, hterm, ne_eq,
      not_true_eq_false, if_false, Option.bind_eq_bind, Option.bind_some, Option.pure_def]
  · let mem₁ := mem.copy (index + bytes.length) index (s₁.size - index)
    have hmove : s₁.move (index + bytes.length) index (s₁.size - index) =
        some { s₁ with blob := some mem₁ } :=
      Strbuf.move_eq hm (by omega) (by omega)
    have hstore : Strbuf.store { s₁ with blob := some mem₁ } index bytes =
        some { s₁ with blob := some (mem₁.write index bytes) } :=
      Strbuf.store_eq rfl (by change index + bytes.length ≤ s₁.blksz; omega)
    have hread : (mem₁.write index bytes).read 0 size = insertBytes L index bytes := by
      have hsplit : size = s₁.size + bytes.length := by omega
      have hnone : index - L.length = 0 := by omega
      rw [hsplit, read_open_gap mem bytes (by omega), hL, insertBytes, hnone, List.replicate_zero,
        List.append_nil]
    obtain ⟨s', hterm, h'⟩ := strbufHolds_terminate
      (s := { s₁ with blob := some (mem₁.write index bytes) }) rfl hle h₁.small hread
    refine ⟨s', ?_, h'⟩
    have hgt₁ : ¬ index > s₁.size := by omega
    simp only [strbufInsert, hadd, hres, if_neg hgt₁, hmove, hstore, hterm, ne_eq,
      not_true_eq_false, if_false, Option.bind_eq_bind, Option.bind_some, Option.pure_def]

theorem strbufInsert_spec {index : ℕ} (h : StrbufHolds s L) (hg : ∀ n, env.granted n = true)
    (hn : max L.length index + bytes.length + 1023 < 2 ^ 64) :
    ∃ s', strbufInsert env s index bytes = some (0, s') ∧
      StrbufHolds s' (insertBytes L index bytes) := by
  rw [h.length] at hn
  obtain ⟨s₁, hres, h₁, hsize, hle⟩ := h.reserve (n := max s.size index + bytes.length) hg hn
  exact strbufInsert_reserved h₁ (by omega) hres hsize hle

/-! ## The list model -/

/-- What an edit does to a list of bytes, with the result code. The other operations are
left out: they get their own statements. -/
def strbufEdit (L : List UInt8) : StrbufOp → ℤ × List UInt8
  | .set blob => (0, blob)
  | .append blob => (0, L ++ blob)
  | .prepend blob => (0, blob ++ L)
  | .insert index blob => (0, insertBytes L index blob)
  | .truncate n => if n ≥ L.length then (-1, L) else (0, L.take n)
  | .remove index n =>
      if index ≥ L.length ∨ n = 0 then (-1, L) else (0, L.take index ++ L.drop (index + n))
  | .ltrim => (0, L.dropWhile isSpace)
  | .rtrim => (0, L.rdropWhile isSpace)
  | .trim => (0, (L.rdropWhile isSpace).dropWhile isSpace)
  | .replace _ _ _ | .mmreserve _ | .mmsqueeze => (0, L)

/-! ## Shrinking edits -/

theorem strbufTruncate_spec (h : StrbufHolds s L) : ∃ s',
    strbufTruncate s n = some ((strbufEdit L (.truncate n)).1, s') ∧
      StrbufHolds s' (strbufEdit L (.truncate n)).2 := by
  simp only [strbufEdit, h.length]
  obtain ⟨mem, hm, hL⟩ := h.blob
  have hsize := h.size
  unfold strbufTruncate
  split_ifs with hn
  · exact ⟨s, rfl, h⟩
  · have htake : mem.read 0 n = L.take n := by rw [← hL, Bytes.read_take (by omega)]
    obtain ⟨s', hterm, h'⟩ := strbufHolds_terminate hm (by omega) h.small htake
    refine ⟨s', ?_, h'⟩
    simp only [hterm, Option.bind_eq_bind, Option.bind_some, Option.pure_def]

theorem strbufRemove_spec {index : ℕ} (h : StrbufHolds s L) (hn : index + n < 2 ^ 64) : ∃ s',
    strbufRemove s index n = some ((strbufEdit L (.remove index n)).1, s') ∧
      StrbufHolds s' (strbufEdit L (.remove index n)).2 := by
  have hlen := h.length
  simp only [strbufEdit]
  obtain ⟨mem, hm, hL⟩ := h.blob
  have hsize := h.size
  unfold strbufRemove
  rw [hlen, add64_eq hn]
  split_ifs with hbad hend
  · exact ⟨s, rfl, h⟩
  · have htake : mem.read 0 index = L.take index ++ L.drop (index + n) := by
      rw [List.drop_of_length_le (by omega), List.append_nil, ← hL, Bytes.read_take (by omega)]
    obtain ⟨s', hterm, h'⟩ := strbufHolds_terminate hm (by omega) h.small htake
    refine ⟨s', ?_, h'⟩
    simp only [hterm, Option.bind_eq_bind, Option.bind_some, Option.pure_def]
  · have hrest : sub64 (sub64 s.size index) n = s.size - index - n := by
      rw [sub64_eq (a := s.size) (by omega), sub64_eq (by omega)]
    have hsub : sub64 s.size n = s.size - n := sub64_eq (by omega)
    let mem₁ := mem.copy index (index + n) (s.size - index - n)
    have hmove : s.move index (index + n) (s.size - index - n) = some { s with blob := some mem₁ } :=
      Strbuf.move_eq hm (by omega) (by omega)
    have hread : mem₁.read 0 (s.size - n) = L.take index ++ L.drop (index + n) := by
      have hsplit : s.size - n = index + (s.size - index - n) := by omega
      rw [hsplit, Bytes.read_add, Bytes.read_copy_outside (Or.inl (by omega)),
        Bytes.read_copy_inside (by omega) (by omega), ← hL, Bytes.read_take (by omega),
        Bytes.read_drop]
      congr 2 <;> omega
    obtain ⟨s', hterm, h'⟩ := strbufHolds_terminate (s := { s with blob := some mem₁ }) rfl
      (by change s.size - n ≤ s.blksz; omega) h.small hread
    refine ⟨s', ?_, h'⟩
    simp only [hrest, hmove, hsub, hterm, Option.bind_eq_bind, Option.bind_some, Option.pure_def]

theorem ltrimLoop_spec (mem : Bytes) (fuel : ℕ) {size start : ℕ} (hs : start ≤ size)
    (hf : size < start + fuel) :
    start ≤ ltrimLoop mem size fuel start ∧ ltrimLoop mem size fuel start ≤ size ∧
      mem.read (ltrimLoop mem size fuel start) (size - ltrimLoop mem size fuel start) =
        (mem.read start (size - start)).dropWhile isSpace := by
  induction fuel generalizing start with
  | zero => omega
  | succ fuel ih =>
      rcases Nat.lt_or_ge start size with hlt | hge
      · have hsplit : size - start = 1 + (size - (start + 1)) := by omega
        have hone : mem.read start 1 = [mem start] := by simp [Bytes.read]
        unfold ltrimLoop
        by_cases hspace : isSpace (mem start) = true
        · have hnext : start + 1 ≤ size := hlt
          obtain ⟨h1, h2, h3⟩ := ih hnext (by omega)
          rw [if_pos ⟨hspace, hlt⟩]
          refine ⟨by omega, h2, ?_⟩
          rw [h3, hsplit, Bytes.read_add, hone, List.singleton_append,
            List.dropWhile_cons_of_pos hspace]
        · rw [if_neg fun hc => hspace hc.1]
          refine ⟨le_rfl, hs, ?_⟩
          rw [hsplit, Bytes.read_add, hone, List.singleton_append,
            List.dropWhile_cons_of_neg hspace]
      · have hz : size - start = 0 := by omega
        unfold ltrimLoop
        rw [if_neg fun hc => absurd hc.2 (by omega), hz]
        exact ⟨le_rfl, hs, rfl⟩

theorem rtrimLoop_spec (mem : Bytes) (n : ℕ) : rtrimLoop mem n ≤ n ∧
    mem.read 0 (rtrimLoop mem n) = (mem.read 0 n).rdropWhile isSpace := by
  induction n with
  | zero => exact ⟨le_rfl, rfl⟩
  | succ n ih =>
      have hone : mem.read (0 + n) 1 = [mem n] := by simp [Bytes.read]
      unfold rtrimLoop
      by_cases hspace : isSpace (mem n) = true
      · rw [if_pos hspace, Bytes.read_add, hone, List.rdropWhile_concat_pos _ _ _ hspace]
        exact ⟨ih.1.trans (Nat.le_succ n), ih.2⟩
      · rw [if_neg hspace, Bytes.read_add, hone, List.rdropWhile_concat_neg _ _ _ hspace]
        exact ⟨le_rfl, rfl⟩

theorem strbufLtrim_spec (h : StrbufHolds s L) :
    ∃ s', strbufLtrim s = some (0, s') ∧ StrbufHolds s' (L.dropWhile isSpace) := by
  obtain ⟨mem, hm, hL⟩ := h.blob
  have hsize := h.size
  obtain ⟨-, hle, hread⟩ := ltrimLoop_spec mem (s.size + 1) (Nat.zero_le s.size) (by omega)
  rw [Nat.sub_zero, hL] at hread
  let start := ltrimLoop mem s.size (s.size + 1) 0
  by_cases hstart : start > 0
  · let mem₁ := mem.copy 0 start (s.size - start)
    have hmove : s.move 0 start (s.size - start) = some { s with blob := some mem₁ } :=
      Strbuf.move_eq hm (by omega) (by omega)
    have hcopied : mem₁.read 0 (s.size - start) = L.dropWhile isSpace := by
      rw [Bytes.read_copy_inside (by omega) (by omega), ← hread]
      congr 1
      omega
    obtain ⟨s', hterm, h'⟩ := strbufHolds_terminate (s := { s with blob := some mem₁ }) rfl
      (by change s.size - start ≤ s.blksz; omega) h.small hcopied
    refine ⟨s', ?_, h'⟩
    simp only [strbufLtrim, hm, Option.bind_eq_bind, Option.bind_some, if_pos hstart, hmove, hterm,
      Option.pure_def, start]
  · have hz : ltrimLoop mem s.size (s.size + 1) 0 = 0 := by omega
    rw [hz, Nat.sub_zero, hL] at hread
    refine ⟨s, ?_, hread ▸ h⟩
    simp only [strbufLtrim, hm, hz, Option.bind_eq_bind, Option.bind_some, lt_irrefl, gt_iff_lt,
      if_false, Option.pure_def]

theorem strbufRtrim_spec (h : StrbufHolds s L) :
    ∃ s', strbufRtrim s = some (0, s') ∧ StrbufHolds s' (L.rdropWhile isSpace) := by
  obtain ⟨mem, hm, hL⟩ := h.blob
  have hsize := h.size
  obtain ⟨hle, hread⟩ := rtrimLoop_spec mem s.size
  rw [hL] at hread
  obtain ⟨s', hterm, h'⟩ := strbufHolds_terminate hm (by omega) h.small hread
  refine ⟨s', ?_, h'⟩
  simp only [strbufRtrim, hm, hterm, Option.bind_eq_bind, Option.bind_some, Option.pure_def]

theorem strbufTrim_spec (h : StrbufHolds s L) : ∃ s', strbufTrim s = some (0, s') ∧
    StrbufHolds s' ((L.rdropWhile isSpace).dropWhile isSpace) := by
  obtain ⟨s₁, hr, h₁⟩ := strbufRtrim_spec h
  obtain ⟨s', hl, h'⟩ := strbufLtrim_spec h₁
  refine ⟨s', ?_, h'⟩
  simp only [strbufTrim, hr, hl, Option.bind_eq_bind, Option.bind_some, Option.pure_def]

/-! ## Runs -/

/-- The operations that `strbufEdit` is about. -/
def StrbufOp.IsEdit : StrbufOp → Prop
  | .replace _ _ _ | .mmreserve _ | .mmsqueeze => False
  | _ => True

/-- No `size_t` overflows, in sums of lengths or in rounding one up. -/
def StrbufOp.NoOverflow (size : ℕ) : StrbufOp → Prop
  | .set blob => blob.length + 1023 < 2 ^ 64
  | .append blob | .prepend blob => size + blob.length + 1023 < 2 ^ 64
  | .insert index blob => max size index + blob.length + 1023 < 2 ^ 64
  | .remove index n => index + n < 2 ^ 64
  | _ => True

theorem strbufStep_edit (h : StrbufHolds s L) (hg : ∀ n, env.granted n = true) {op : StrbufOp}
    (he : op.IsEdit) (ho : op.NoOverflow s.size) :
    ∃ s', strbufStep env s op = some ((strbufEdit L op).1, s') ∧
      StrbufHolds s' (strbufEdit L op).2 := by
  rw [← h.length] at ho
  cases op with
  | set blob => exact strbufSet_spec h hg ho
  | append blob => exact strbufAppend_spec h hg ho
  | prepend blob => exact strbufPrepend_spec h hg ho
  | insert index blob => exact strbufInsert_spec h hg ho
  | truncate n => exact strbufTruncate_spec h
  | remove index n => exact strbufRemove_spec h ho
  | ltrim => exact strbufLtrim_spec h
  | rtrim => exact strbufRtrim_spec h
  | trim => exact strbufTrim_spec h
  | replace _ _ _ => exact he.elim
  | mmreserve _ => exact he.elim
  | mmsqueeze => exact he.elim

/-- The edits of a list, with their result codes. -/
def strbufEdits (L : List UInt8) : List StrbufOp → List ℤ × List UInt8
  | [] => ([], L)
  | op :: ops =>
      let (rc, L) := strbufEdit L op
      let (rcs, L) := strbufEdits L ops
      (rc :: rcs, L)

/-- Every run of edits of an allocated string buffer gives the bytes and the results that
the list model gives. -/
theorem strbufRun_lists (env : Allocator) (hg : ∀ n, env.granted n = true) (s : Strbuf)
    (L : List UInt8) (h : StrbufHolds s L) (ops : List StrbufOp)
    (hops : Meets (strbufStep env) (fun s op => op.IsEdit ∧ op.NoOverflow s.size) s ops) :
    ∃ s', runAll (strbufStep env) s ops = some ((strbufEdits L ops).1, s') ∧
      StrbufHolds s' (strbufEdits L ops).2 := by
  induction ops generalizing s L with
  | nil => exact ⟨s, rfl, h⟩
  | cons op ops ih =>
      obtain ⟨⟨he, ho⟩, hrest⟩ := hops
      obtain ⟨s₁, hstep, h₁⟩ := strbufStep_edit h hg he ho
      obtain ⟨s', hrun, h'⟩ := ih s₁ _ h₁ (hrest _ _ hstep)
      refine ⟨s', ?_, h'⟩
      unfold runAll
      simp only [hstep, hrun, strbufEdits, Option.bind_eq_bind, Option.bind_some, Option.pure_def]

theorem strbufRun_lists_spaces : ∃ s',
    runAll (strbufStep ⟨fun _ => true, fun _ _ => 0⟩) ⟨some fun _ => 32, 8, 2, 0, false, false⟩
      [.set [32, 97], .trim] = some ([0, 0], s') ∧ StrbufHolds s' [97] := by
  refine strbufRun_lists ⟨fun _ => true, fun _ _ => 0⟩ (fun _ => rfl) _ [32, 32]
    ⟨⟨_, rfl, rfl⟩, by decide, by norm_num⟩ [.set [32, 97], .trim] (meets_of_forall ?_)
  intro s op hop
  rcases List.mem_pair.mp hop with rfl | rfl
  · exact ⟨trivial, by simp [StrbufOp.NoOverflow]⟩
  · exact ⟨trivial, trivial⟩

end Carthage
