import Carthage.StrbufEdits

/-!
# Room for the terminator

A string buffer is safe when its length is below its capacity, the terminator is there, and
no terminator was ever stored outside the block. Growing an operation's length to exactly
the rounded capacity breaks this, as do shrinking the block to the length and reserving
memory for an empty buffer.
-/

namespace Carthage

variable {env : Allocator} {s s' : Strbuf} {mem : Bytes} {bytes : List UInt8} {n : ℕ}

structure StrbufSafe (s : Strbuf) : Prop where
  terminated : ∀ mem, s.blob = some mem → s.size < s.blksz ∧ mem s.size = 0
  inside : s.overrun = false

/-- A reachable safe state: without a block there is neither capacity nor length. -/
structure StrbufSound (s : Strbuf) : Prop extends StrbufSafe s where
  null : s.blob = none → s.blksz = 0 ∧ s.size = 0
  held : s.blob = none → s.freed = false
  small : s.blksz < 2 ^ 64

/-- After making room for `n` bytes there is room for a terminator behind them. -/
def Strbuf.HasRoom (s : Strbuf) (n : ℕ) : Prop :=
  n < if n > s.blksz then strbufCapacity n else s.blksz

instance : Decidable (s.HasRoom n) := inferInstanceAs (Decidable (_ < _))

/-- The length after `strbuf_remove`. -/
def removedSize (size index n : ℕ) : ℕ :=
  if index ≥ size ∨ n = 0 then size else if index + n ≥ size then index else size - n

/-- The operation stores its terminator inside the block and leaves one there. -/
def StrbufOp.KeepsRoom (env : Allocator) (s : Strbuf) : StrbufOp → Prop
  | .set blob => s.HasRoom blob.length
  | .append blob | .prepend blob => s.HasRoom (s.size + blob.length)
  | .insert index blob => s.HasRoom (max s.size index + blob.length)
  | .replace index size blob =>
      size = blob.length ∧ index + blob.length ≤ s.size ∨
        s.HasRoom (max (removedSize s.size index blob.length) index + blob.length)
  | .truncate _ => True
  | .remove index n =>
      index ≥ s.size ∨ index + n < 2 ^ 64 ∨ n < 2 ^ 64 ∧ s.size + 2 ^ 64 < s.blksz + n
  | .ltrim | .rtrim | .trim => s.blob.isSome
  | .mmreserve n =>
      n ≤ s.blksz ∨ n < 2 ^ 64 ∧ s.size < strbufCapacity n ∧
        (s.blob.isSome ∨ env.uninit s.requests 0 = 0)
  | .mmsqueeze => False

theorem strbufCapacity_lt (h : n < 2 ^ 64) : strbufCapacity n < 2 ^ 64 := by
  unfold strbufCapacity alignUp add64
  split_ifs <;> omega

theorem lt_of_lt_strbufCapacity (h : n < strbufCapacity n) : n < 2 ^ 64 := by
  unfold strbufCapacity alignUp add64 at h
  split_ifs at h <;> omega

theorem StrbufSound.size_le (h : StrbufSound s) : s.size ≤ s.blksz := by
  cases hm : s.blob with
  | none =>
      obtain ⟨h1, h2⟩ := h.null hm
      omega
  | some mem => exact (h.terminated mem hm).1.le

theorem StrbufSound.store (h : StrbufSound s) {dst : ℕ} (hd : dst + bytes.length ≤ s.size) :
    ∃ s', s.store dst bytes = some s' ∧ StrbufSound s' := by
  cases hm : s.blob with
  | none =>
      obtain ⟨-, h2⟩ := h.null hm
      refine ⟨s, ?_, h⟩
      unfold Strbuf.store
      rw [if_pos (by omega)]
  | some mem =>
      obtain ⟨hlt, hz⟩ := h.terminated mem hm
      refine ⟨_, Strbuf.store_eq hm (by omega), ⟨⟨?_, h.inside⟩, fun hc => ?_, fun hc => ?_, h.small⟩⟩
      · rintro _ ⟨⟩
        exact ⟨hlt, (Bytes.write_of_ge hd).trans hz⟩
      · cases hc
      · cases hc

theorem StrbufSound.reserve (h : StrbufSound s) (hg : ∀ n, env.granted n = true)
    (hn : s.HasRoom n) : ∃ mem s', s.reserve env n = some (0, s') ∧ s'.blob = some mem ∧
      s'.size = s.size ∧ s.size ≤ s'.blksz ∧ n < s'.blksz ∧ s'.blksz < 2 ^ 64 ∧
      s'.overrun = false := by
  have hle := h.size_le
  unfold Strbuf.HasRoom at hn
  unfold Strbuf.reserve
  split_ifs at hn ⊢ with hlt
  · have hsmall := strbufCapacity_lt (lt_of_lt_strbufCapacity hn)
    have hfits : s.size ≤ strbufCapacity n := by omega
    rw [Strbuf.resize_eq h.held fun _ => by omega, hg, if_pos rfl]
    exact ⟨_, _, rfl, rfl, rfl, hfits, hn, hsmall, h.inside⟩
  · cases hm : s.blob with
    | none =>
        obtain ⟨h1, -⟩ := h.null hm
        omega
    | some mem => exact ⟨mem, s, rfl, hm, rfl, hle, hn, h.small, h.inside⟩

theorem strbufSound_terminate (hm : s.blob = some mem) (hn : n < s.blksz)
    (hsmall : s.blksz < 2 ^ 64) (ho : s.overrun = false) :
    ∃ s', s.terminate n = some s' ∧ StrbufSound s' ∧ s'.size = n ∧ s'.blksz = s.blksz := by
  refine ⟨_, Strbuf.terminate_eq hm n, ⟨⟨?_, ?_⟩, fun hc => ?_, fun hc => ?_, hsmall⟩,
    rfl, rfl⟩
  · rintro _ ⟨⟩
    exact ⟨hn, Function.update_self _ _ _⟩
  · simp only [ho, Bool.false_or, decide_eq_false_iff_not]
    omega
  · cases hc
  · cases hc

theorem strbufSet_sound (h : StrbufSound s) (hg : ∀ n, env.granted n = true)
    (hn : s.HasRoom bytes.length) :
    ∃ s', strbufSet env s bytes = some (0, s') ∧ StrbufSound s' := by
  obtain ⟨mem, s₁, hres, hm, -, -, hlt, hsmall, ho⟩ := h.reserve hg hn
  have hstore : s₁.store 0 bytes = some { s₁ with blob := some (mem.write 0 bytes) } :=
    Strbuf.store_eq hm (by omega)
  obtain ⟨s', hterm, h', -⟩ := strbufSound_terminate
    (s := { s₁ with blob := some (mem.write 0 bytes) }) rfl hlt hsmall ho
  refine ⟨s', ?_, h'⟩
  simp only [strbufSet, hres, hstore, hterm, ne_eq, not_true_eq_false, if_false,
    Option.bind_eq_bind, Option.bind_some, Option.pure_def]

theorem HasRoom.lt (h : s.HasRoom n) (hs : s.blksz < 2 ^ 64) : n < 2 ^ 64 := by
  unfold Strbuf.HasRoom at h
  split_ifs at h with hlt
  · exact lt_of_lt_strbufCapacity h
  · omega

theorem strbufAppend_sound (h : StrbufSound s) (hg : ∀ n, env.granted n = true)
    (hn : s.HasRoom (s.size + bytes.length)) :
    ∃ s', strbufAppend env s bytes = some (0, s') ∧ StrbufSound s' := by
  have hadd : add64 s.size bytes.length = s.size + bytes.length := add64_eq (HasRoom.lt hn h.small)
  obtain ⟨mem, s₁, hres, hm, hsize, -, hlt, hsmall, ho⟩ := h.reserve hg hn
  have hstore : s₁.store s₁.size bytes =
      some { s₁ with blob := some (mem.write s₁.size bytes) } :=
    Strbuf.store_eq hm (by omega)
  obtain ⟨s', hterm, h', -⟩ := strbufSound_terminate
    (s := { s₁ with blob := some (mem.write s₁.size bytes) }) rfl hlt hsmall ho
  refine ⟨s', ?_, h'⟩
  simp only [strbufAppend, hadd, hres, hstore, hterm, ne_eq, not_true_eq_false, if_false,
    Option.bind_eq_bind, Option.bind_some, Option.pure_def]

theorem strbufPrepend_sound (h : StrbufSound s) (hg : ∀ n, env.granted n = true)
    (hn : s.HasRoom (s.size + bytes.length)) :
    ∃ s', strbufPrepend env s bytes = some (0, s') ∧ StrbufSound s' := by
  have hadd : add64 s.size bytes.length = s.size + bytes.length := add64_eq (HasRoom.lt hn h.small)
  obtain ⟨mem, s₁, hres, hm, hsize, -, hlt, hsmall, ho⟩ := h.reserve hg hn
  let mem₁ := mem.copy bytes.length 0 s₁.size
  have hmove : s₁.move bytes.length 0 s₁.size = some { s₁ with blob := some mem₁ } :=
    Strbuf.move_eq hm (by omega) (by omega)
  have hstore : Strbuf.store { s₁ with blob := some mem₁ } 0 bytes =
      some { s₁ with blob := some (mem₁.write 0 bytes) } :=
    Strbuf.store_eq rfl (by change 0 + bytes.length ≤ s₁.blksz; omega)
  obtain ⟨s', hterm, h', -⟩ := strbufSound_terminate
    (s := { s₁ with blob := some (mem₁.write 0 bytes) }) rfl hlt hsmall ho
  refine ⟨s', ?_, h'⟩
  simp only [strbufPrepend, hadd, hres, hmove, hstore, hterm, ne_eq, not_true_eq_false, if_false,
    Option.bind_eq_bind, Option.bind_some, Option.pure_def]

theorem strbufInsert_sound {index : ℕ} (h : StrbufSound s) (hg : ∀ n, env.granted n = true)
    (hn : s.HasRoom (max s.size index + bytes.length)) :
    ∃ s', strbufInsert env s index bytes = some (0, s') ∧ StrbufSound s' := by
  have hadd := insertedSize_eq (HasRoom.lt hn h.small)
  obtain ⟨mem, s₁, hres, hm, hsize, -, hlt, hsmall, ho⟩ := h.reserve hg hn
  by_cases hgt : index > s₁.size
  · let mem₁ := mem.write s₁.size (List.replicate (index - s₁.size) 32)
    have hfill : s₁.store s₁.size (List.replicate (index - s₁.size) 32) =
        some { s₁ with blob := some mem₁ } :=
      Strbuf.store_eq hm (by rw [List.length_replicate]; omega)
    have hstore : Strbuf.store { s₁ with blob := some mem₁ } index bytes =
        some { s₁ with blob := some (mem₁.write index bytes) } :=
      Strbuf.store_eq rfl (by change index + bytes.length ≤ s₁.blksz; omega)
    obtain ⟨s', hterm, h', -⟩ := strbufSound_terminate
      (s := { s₁ with blob := some (mem₁.write index bytes) }) rfl hlt hsmall ho
    refine ⟨s', ?_, h'⟩
    simp only [strbufInsert, hadd, hres, if_pos hgt, hfill, hstore, hterm, ne_eq,
      not_true_eq_false, if_false, Option.bind_eq_bind, Option.bind_some, Option.pure_def]
  · let mem₁ := mem.copy (index + bytes.length) index (s₁.size - index)
    have hmove : s₁.move (index + bytes.length) index (s₁.size - index) =
        some { s₁ with blob := some mem₁ } :=
      Strbuf.move_eq hm (by omega) (by omega)
    have hstore : Strbuf.store { s₁ with blob := some mem₁ } index bytes =
        some { s₁ with blob := some (mem₁.write index bytes) } :=
      Strbuf.store_eq rfl (by change index + bytes.length ≤ s₁.blksz; omega)
    obtain ⟨s', hterm, h', -⟩ := strbufSound_terminate
      (s := { s₁ with blob := some (mem₁.write index bytes) }) rfl hlt hsmall ho
    refine ⟨s', ?_, h'⟩
    simp only [strbufInsert, hadd, hres, if_neg hgt, hmove, hstore, hterm, ne_eq,
      not_true_eq_false, if_false, Option.bind_eq_bind, Option.bind_some, Option.pure_def]

theorem strbufTruncate_sound (h : StrbufSound s) :
    ∃ rc s', strbufTruncate s n = some (rc, s') ∧ StrbufSound s' := by
  unfold strbufTruncate
  split_ifs with hn
  · exact ⟨-1, s, rfl, h⟩
  · cases hm : s.blob with
    | none =>
        obtain ⟨-, h2⟩ := h.null hm
        omega
    | some mem =>
        have hlt := (h.terminated mem hm).1
        obtain ⟨s', hterm, h', -⟩ := strbufSound_terminate hm (n := n) (by omega) h.small h.inside
        refine ⟨0, s', ?_, h'⟩
        simp only [hterm, Option.bind_eq_bind, Option.bind_some, Option.pure_def]

theorem removedRange_le {size index blksz : ℕ} (hi : index < size) (hsize : size < blksz)
    (hsmall : blksz < 2 ^ 64) (hend : add64 index n < size)
    (hk : index + n < 2 ^ 64 ∨ n < 2 ^ 64 ∧ size + 2 ^ 64 < blksz + n) :
    add64 index n + sub64 (sub64 size index) n ≤ blksz ∧
      index + sub64 (sub64 size index) n ≤ blksz ∧ sub64 size n < blksz := by
  have hindex : sub64 size index = size - index := sub64_eq hi.le
  rw [hindex]
  rcases Nat.lt_or_ge (index + n) (2 ^ 64) with hadd | hadd
  · rw [add64_eq hadd] at hend ⊢
    rw [sub64_eq (a := size - index) (by omega), sub64_eq (by omega)]
    omega
  · have hsub : sub64 size n = size + 2 ^ 64 - n := if_neg (by omega)
    have hrest : sub64 (size - index) n = size - index + 2 ^ 64 - n := if_neg (by omega)
    have hwrap : add64 index n = index + n - 2 ^ 64 := if_neg (by omega)
    rw [hsub, hrest, hwrap]
    omega

theorem strbufRemove_sound {index : ℕ} (h : StrbufSound s)
    (hk : StrbufOp.KeepsRoom env s (.remove index n)) :
    ∃ rc s', strbufRemove s index n = some (rc, s') ∧ StrbufSound s' ∧ s'.blksz = s.blksz ∧
      (index + n < 2 ^ 64 → s'.size = removedSize s.size index n) := by
  by_cases hbad : index ≥ s.size ∨ n = 0
  · refine ⟨-1, s, ?_, h, rfl, fun _ => ?_⟩
    · unfold strbufRemove
      rw [if_pos hbad]
    · unfold removedSize
      rw [if_pos hbad]
  · obtain ⟨hi, hn⟩ := not_or.mp hbad
    cases hm : s.blob with
    | none =>
        obtain ⟨-, h2⟩ := h.null hm
        omega
    | some mem =>
        have hlt := (h.terminated mem hm).1
        have hsmall := h.small
        by_cases hend : add64 index n ≥ s.size
        · obtain ⟨s', hterm, h', hsize, hblk⟩ :=
            strbufSound_terminate hm (n := index) (by omega) hsmall h.inside
          refine ⟨0, s', ?_, h', hblk, fun hadd => ?_⟩
          · simp only [strbufRemove, if_neg hbad, if_pos hend, hterm, Option.bind_eq_bind,
              Option.bind_some, Option.pure_def]
          · rw [add64_eq hadd] at hend
            rw [hsize, removedSize, if_neg hbad, if_pos hend]
        · obtain ⟨hsrc, hdst, hsub⟩ := removedRange_le (not_le.mp hi) hlt hsmall
            (not_le.mp hend) (hk.resolve_left hi)
          let mem₁ := mem.copy index (add64 index n) (sub64 (sub64 s.size index) n)
          have hmove : s.move index (add64 index n) (sub64 (sub64 s.size index) n) =
              some { s with blob := some mem₁ } :=
            Strbuf.move_eq hm hsrc hdst
          obtain ⟨s', hterm, h', hsize, hblk⟩ := strbufSound_terminate
            (s := { s with blob := some mem₁ }) rfl hsub hsmall h.inside
          refine ⟨0, s', ?_, h', hblk, fun hadd => ?_⟩
          · simp only [strbufRemove, if_neg hbad, if_neg hend, hmove, hterm, Option.bind_eq_bind,
              Option.bind_some, Option.pure_def]
          · rw [add64_eq hadd] at hend
            rw [hsize, removedSize, if_neg hbad, if_neg hend, sub64_eq (by omega)]

theorem strbufReplace_sound {index size : ℕ} (h : StrbufSound s)
    (hg : ∀ n, env.granted n = true)
    (hk : StrbufOp.KeepsRoom env s (.replace index size bytes)) :
    ∃ rc s', strbufReplace env s index size bytes = some (rc, s') ∧ StrbufSound s' := by
  have hsmall := h.small
  by_cases hin : size = bytes.length ∧ index + bytes.length ≤ s.size
  · have hle := h.size_le
    have hadd : add64 index bytes.length = index + bytes.length := add64_eq (by omega)
    obtain ⟨s', hstore, h'⟩ := h.store hin.2
    refine ⟨0, s', ?_, h'⟩
    unfold strbufReplace
    rw [hadd, if_pos hin]
    simp only [hstore, Option.bind_eq_bind, Option.bind_some, Option.pure_def]
  · have hroom := hk.resolve_left hin
    have hsum := HasRoom.lt hroom hsmall
    have hadd : add64 index bytes.length = index + bytes.length := add64_eq (by omega)
    have hkeep : StrbufOp.KeepsRoom env s (.remove index bytes.length) :=
      Or.inr (Or.inl (by omega))
    obtain ⟨rc, s₁, hrem, h₁, hblk, hsize⟩ := strbufRemove_sound h hkeep
    have hroom₁ : s₁.HasRoom (max s₁.size index + bytes.length) := by
      rw [Strbuf.HasRoom, hblk, hsize (by omega)]
      exact hroom
    obtain ⟨s', hins, h'⟩ := strbufInsert_sound h₁ hg hroom₁
    refine ⟨0, s', ?_, h'⟩
    unfold strbufReplace
    rw [hadd, if_neg hin]
    simp only [hrem, hins, ne_eq, not_true_eq_false, if_false, Option.bind_eq_bind,
      Option.bind_some, Option.pure_def]

theorem strbufLtrim_sound (h : StrbufSound s) (hb : s.blob.isSome) :
    ∃ rc s', strbufLtrim s = some (rc, s') ∧ StrbufSound s' := by
  obtain ⟨mem, hm⟩ := Option.isSome_iff_exists.mp hb
  have hlt := (h.terminated mem hm).1
  obtain ⟨-, hle, -⟩ := ltrimLoop_spec mem (s.size + 1) (Nat.zero_le s.size) (by omega)
  let start := ltrimLoop mem s.size (s.size + 1) 0
  by_cases hstart : start > 0
  · let mem₁ := mem.copy 0 start (s.size - start)
    have hmove : s.move 0 start (s.size - start) = some { s with blob := some mem₁ } :=
      Strbuf.move_eq hm (by omega) (by omega)
    obtain ⟨s', hterm, h', -⟩ := strbufSound_terminate (s := { s with blob := some mem₁ })
      (n := s.size - start) rfl (by change s.size - start < s.blksz; omega) h.small h.inside
    refine ⟨0, s', ?_, h'⟩
    simp only [strbufLtrim, hm, Option.bind_eq_bind, Option.bind_some, if_pos hstart, hmove, hterm,
      Option.pure_def, start]
  · refine ⟨0, s, ?_, h⟩
    simp only [strbufLtrim, hm, Option.bind_eq_bind, Option.bind_some, if_neg hstart,
      Option.pure_def, start]

theorem strbufRtrim_sound (h : StrbufSound s) (hb : s.blob.isSome) :
    ∃ rc s', strbufRtrim s = some (rc, s') ∧ StrbufSound s' ∧ s'.blob.isSome := by
  obtain ⟨mem, hm⟩ := Option.isSome_iff_exists.mp hb
  have hlt := (h.terminated mem hm).1
  have hle := (rtrimLoop_spec mem s.size).1
  obtain ⟨s', hterm, h', -, -⟩ := strbufSound_terminate hm (n := rtrimLoop mem s.size) (by omega)
    h.small h.inside
  refine ⟨0, s', ?_, h', ?_⟩
  · simp only [strbufRtrim, hm, hterm, Option.bind_eq_bind, Option.bind_some, Option.pure_def]
  · rw [Strbuf.terminate_eq hm] at hterm
    obtain rfl := Option.some.inj hterm
    rfl

theorem strbufTrim_sound (h : StrbufSound s) (hb : s.blob.isSome) :
    ∃ rc s', strbufTrim s = some (rc, s') ∧ StrbufSound s' := by
  obtain ⟨rc₁, s₁, hr, h₁, hb₁⟩ := strbufRtrim_sound h hb
  obtain ⟨rc, s', hl, h'⟩ := strbufLtrim_sound h₁ hb₁
  refine ⟨0, s', ?_, h'⟩
  simp only [strbufTrim, hr, hl, Option.bind_eq_bind, Option.bind_some, Option.pure_def]

theorem strbufMmreserve_sound (h : StrbufSound s) (hg : ∀ n, env.granted n = true)
    (hk : StrbufOp.KeepsRoom env s (.mmreserve n)) :
    ∃ rc s', strbufMmreserve env s n = some (rc, s') ∧ StrbufSound s' := by
  unfold strbufMmreserve Strbuf.reserve
  split_ifs with hlt
  · obtain ⟨hn, hcap, hblob⟩ := hk.resolve_left (by omega)
    rw [Strbuf.resize_eq h.held fun _ => by omega, hg, if_pos rfl]
    refine ⟨0, _, rfl, ⟨?_, h.inside⟩, fun hc => ?_, fun hc => ?_, strbufCapacity_lt hn⟩
    · rintro _ ⟨⟩
      refine ⟨hcap, ?_⟩
      cases hm : s.blob with
      | none =>
          obtain ⟨h1, h2⟩ := h.null hm
          simp only [h1, h2, Nat.zero_min, lt_irrefl, if_false]
          exact hblob.resolve_left (by simp [hm])
      | some mem =>
          obtain ⟨hsize, hz⟩ := h.terminated mem hm
          exact (if_pos (lt_min hsize hcap)).trans hz
    · cases hc
    · cases hc
  · exact ⟨0, s, rfl, h⟩

theorem strbufStep_sound (h : StrbufSound s) (hg : ∀ n, env.granted n = true) {op : StrbufOp}
    (hk : op.KeepsRoom env s) :
    ∃ rc s', strbufStep env s op = some (rc, s') ∧ StrbufSound s' := by
  cases op with
  | set blob =>
      obtain ⟨s', hstep, h'⟩ := strbufSet_sound h hg hk
      exact ⟨0, s', hstep, h'⟩
  | append blob =>
      obtain ⟨s', hstep, h'⟩ := strbufAppend_sound h hg hk
      exact ⟨0, s', hstep, h'⟩
  | prepend blob =>
      obtain ⟨s', hstep, h'⟩ := strbufPrepend_sound h hg hk
      exact ⟨0, s', hstep, h'⟩
  | insert index blob =>
      obtain ⟨s', hstep, h'⟩ := strbufInsert_sound h hg hk
      exact ⟨0, s', hstep, h'⟩
  | replace index size blob => exact strbufReplace_sound h hg hk
  | truncate n => exact strbufTruncate_sound h
  | remove index n =>
      obtain ⟨rc, s', hstep, h', -, -⟩ := strbufRemove_sound h hk
      exact ⟨rc, s', hstep, h'⟩
  | ltrim => exact strbufLtrim_sound h hk
  | rtrim =>
      obtain ⟨rc, s', hstep, h', -⟩ := strbufRtrim_sound h hk
      exact ⟨rc, s', hstep, h'⟩
  | trim => exact strbufTrim_sound h hk
  | mmreserve n => exact strbufMmreserve_sound h hg hk
  | mmsqueeze => exact hk.elim

theorem strbufSound_alloc : StrbufSound strbufAlloc :=
  ⟨⟨fun _ hc => (nomatch hc), rfl⟩, fun _ => ⟨rfl, rfl⟩, fun _ => rfl, by norm_num [strbufAlloc]⟩

/-- From a new buffer, operations that keep room for the terminator leave the buffer safe. -/
theorem strbufRun_safe (env : Allocator) (hg : ∀ n, env.granted n = true) (ops : List StrbufOp)
    (hk : Meets (strbufStep env) (StrbufOp.KeepsRoom env) strbufAlloc ops) :
    ∃ rcs s', runAll (strbufStep env) strbufAlloc ops = some (rcs, s') ∧ StrbufSafe s' := by
  obtain ⟨rcs, s', hrun, h'⟩ := runAll_invariant StrbufSound
    (fun s op h hok => strbufStep_sound h hg hok) strbufSound_alloc hk
  exact ⟨rcs, s', hrun, h'.toStrbufSafe⟩

theorem strbufRun_safe_append : ∃ rcs s',
    runAll (strbufStep ⟨fun _ => true, fun _ _ => 0⟩) strbufAlloc [.set [97], .append [98]] =
      some (rcs, s') ∧ StrbufSafe s' := by
  have hset : Strbuf.HasRoom strbufAlloc 1 := by decide
  refine strbufRun_safe ⟨fun _ => true, fun _ _ => 0⟩ (fun _ => rfl) [.set [97], .append [98]]
    ⟨hset, ?_⟩
  rintro r s' ⟨⟩
  exact ⟨show 2 < if 2 > 8 then strbufCapacity 2 else 8 by decide, fun _ _ _ => trivial⟩

/-- Eight bytes fill the block, and the terminator is stored behind it. -/
theorem strbufRun_overrun : ∃ rcs s',
    runAll (strbufStep ⟨fun _ => true, fun _ _ => 0⟩) strbufAlloc
      [.set [97, 98, 99, 100, 101, 102, 103, 104]] = some (rcs, s') ∧
      s'.size = s'.blksz ∧ s'.overrun = true ∧ ¬ StrbufSafe s' := by
  refine ⟨_, _, rfl, rfl, rfl, fun h => ?_⟩
  exact Bool.noConfusion h.inside

end Carthage
