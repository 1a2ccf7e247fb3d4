import Carthage.StrbufOrder
import Carthage.StrbufRoom

/-!
# Removing and replacing

`strbuf_remove` as long as the end of the range is a `size_t`, and `strbuf_replace`, which
removes as many bytes as it puts in.
-/

namespace Carthage

variable {env : Allocator} {s : Strbuf} {mem : Bytes} {size index n : ℕ}

/-! ## Removing -/

/-- The block after `n` bytes were removed at `index`. -/
def removedBytes (mem : Bytes) (size index n : ℕ) : Bytes :=
  if index + n ≥ size then Function.update mem index 0
  else Function.update (mem.copy index (index + n) (size - index - n)) (size - n) 0

theorem strbufRemove_eq (hm : s.blob = some mem) (hsize : s.size ≤ s.blksz) (hi : index < s.size)
    (hn : n ≠ 0) (hadd : index + n < 2 ^ 64) :
    strbufRemove s index n = some (0, { s with
      blob := some (removedBytes mem s.size index n), size := removedSize s.size index n }) := by
  have hbad : ¬ (index ≥ s.size ∨ n = 0) := by
    rintro (h | h)
    · omega
    · exact hn h
  unfold strbufRemove removedBytes removedSize
  rw [if_neg hbad, if_neg hbad, add64_eq hadd]
  by_cases hend : index + n ≥ s.size
  · have hin : ¬ s.blksz ≤ index := by omega
    rw [if_pos hend, if_pos hend, if_pos hend, Strbuf.terminate_eq hm]
    simp only [hin, decide_false, Bool.or_false, Option.bind_eq_bind, Option.bind_some,
      Option.pure_def]
  · have hrest : sub64 (sub64 s.size index) n = s.size - index - n := by
      rw [sub64_eq (a := s.size) (by omega), sub64_eq (by omega)]
    have hsub : sub64 s.size n = s.size - n := sub64_eq (by omega)
    have hin : ¬ s.blksz ≤ s.size - n := by omega
    let mem₁ := mem.copy index (index + n) (s.size - index - n)
    have hmove : s.move index (index + n) (s.size - index - n) = some { s with blob := some mem₁ } :=
      Strbuf.move_eq hm (by omega) (by omega)
    have hterm : ({ s with blob := some mem₁ } : Strbuf).terminate (s.size - n) = _ :=
      Strbuf.terminate_eq rfl _
    rw [if_neg hend, if_neg hend, if_neg hend, hrest, hmove]
    simp only [hsub, hterm, hin, decide_false, Bool.or_false, Option.bind_eq_bind,
      Option.bind_some, Option.pure_def, mem₁]

theorem read_removedBytes (hi : index < size) (hn : n ≠ 0) :
    (removedBytes mem size index n).read 0 (removedSize size index n) =
      (mem.read 0 size).take index ++ (mem.read 0 size).drop (index + n) := by
  have hbad : ¬ (index ≥ size ∨ n = 0) := by
    rintro (h | h)
    · omega
    · exact hn h
  have hlen : (mem.read 0 size).length = size := Bytes.length_read
  unfold removedBytes removedSize
  rw [if_neg hbad]
  split_ifs with hend
  · rw [Bytes.read_update (Nat.zero_add index).le, List.drop_of_length_le (by omega),
      List.append_nil, Bytes.read_take hi.le]
  · have hsplit : size - n = index + (size - index - n) := by omega
    rw [Bytes.read_update (Nat.zero_add _).le, hsplit, Bytes.read_add,
      Bytes.read_copy_outside (Or.inl (by omega)), Bytes.read_copy_inside (by omega) (by omega),
      Bytes.read_take hi.le, Bytes.read_drop]
    congr 2 <;> omega

theorem removedBytes_of_gt {i : ℕ} (hi : index < size) (hlt : size < i) :
    removedBytes mem size index n i = mem i := by
  unfold removedBytes
  split_ifs with hend
  · exact Function.update_of_ne (by omega) _ _
  · rw [Function.update_of_ne (by omega)]
    exact if_neg (by omega)

theorem removedSize_le : removedSize size index n ≤ size := by
  unfold removedSize
  split_ifs <;> omega

theorem Strbuf.move_size {s' : Strbuf} {dst src : ℕ} (h : s.move dst src n = some s') :
    s'.size = s.size := by
  unfold Strbuf.move at h
  split_ifs at h
  · cases h
    rfl
  · obtain ⟨m, -, h⟩ := Option.bind_eq_some_iff.mp h
    obtain ⟨m', -, h⟩ := Option.bind_eq_some_iff.mp h
    cases h
    rfl

/-- `strbuf_remove` takes out the range, cut off at the end, and works on the first
`size + 1` bytes alone: it does the same in a block that ends behind them. -/
def StrbufRemoves (s : Strbuf) (index n : ℕ) : Prop :=
  ∃ mem' size', strbufRemove s index n = some (0, { s with blob := some mem', size := size' }) ∧
    mem'.read 0 size' = s.contents.take index ++ s.contents.drop (index + n) ∧ size' ≤ s.size ∧
    (∀ i, s.size < i → s.blob.map (fun mem => mem i) = some (mem' i)) ∧
    strbufRemove { s with blksz := s.size + 1 } index n = some (0, { s with
      blob := some mem', size := size', blksz := s.size + 1 })

theorem strbufRemove_removes (h : StrbufString s) (hi : index < s.size) (hn : n ≠ 0)
    (hsmall : s.size < 2 ^ 64) (hword : n < 2 ^ 64) :
    StrbufRemoves s index n ↔ index + n < 2 ^ 64 := by
  constructor
  · rintro ⟨mem', size', hrun, hread, -, -, -⟩
    by_contra hwrap
    have hlen := congrArg List.length hread
    have hdrop : s.contents.drop (index + n) = [] := List.drop_of_length_le (by simp; omega)
    rw [hdrop, List.append_nil, Bytes.length_read, List.length_take, s.length_contents,
      Nat.min_eq_left hi.le] at hlen
    have hadd : add64 index n = index + n - 2 ^ 64 := if_neg (by omega)
    have hbad : ¬ (index ≥ s.size ∨ n = 0) := by
      rintro (h | h)
      · omega
      · exact hn h
    have hend : ¬ add64 index n ≥ s.size := by omega
    unfold strbufRemove at hrun
    rw [if_neg hbad, if_neg hend] at hrun
    obtain ⟨s₁, hmove, hrun⟩ := Option.bind_eq_some_iff.mp hrun
    obtain ⟨s₂, hterm, hrun⟩ := Option.bind_eq_some_iff.mp hrun
    obtain ⟨m, hm, hterm⟩ := Option.bind_eq_some_iff.mp hterm
    -- The new length is `size - n` modulo `2 ^ 64`, which is not `index`.
    have hsize : size' = sub64 s.size n := by
      rw [← Strbuf.move_size hmove]
      cases hterm
      have hpair := congrArg Prod.snd (Option.some.inj hrun)
      exact (congrArg Strbuf.size hpair).symm
    unfold sub64 at hsize
    split_ifs at hsize <;> omega
  · intro hadd
    cases hm : s.blob with
    | none =>
        have := h.null hm
        omega
    | some mem =>
        refine ⟨_, _, strbufRemove_eq hm h.size hi hn hadd, ?_, removedSize_le, fun i hlt => ?_, ?_⟩
        · rw [Strbuf.contents_eq hm]
          exact read_removedBytes hi hn
        · rw [hm, Option.map_some, removedBytes_of_gt hi hlt]
        · exact strbufRemove_eq (s := { s with blksz := s.size + 1 }) hm (Nat.le_succ _) hi hn hadd

/-- `abc` in a block of eight bytes. -/
def strbufAbc : Strbuf := { strbufOf [97, 98, 99] with blksz := 8 }

theorem strbufAbc_string : StrbufString strbufAbc :=
  ⟨by decide, fun hc => (nomatch hc), fun hc => (nomatch hc)⟩

theorem strbufRemove_removes_rest : StrbufRemoves strbufAbc 1 (2 ^ 64 - 2) :=
  (strbufRemove_removes strbufAbc_string (by decide) (by decide) (by decide) (by decide)).mpr
    (by decide)

/-- When `index + n` wraps around, the string grows. -/
theorem strbufRemove_grows : ¬ StrbufRemoves strbufAbc 1 (2 ^ 64 - 1) ∧
    ∃ s', strbufRemove strbufAbc 1 (2 ^ 64 - 1) = some (0, s') ∧
      s'.contents = [97, 97, 98, 99] := by
  have hrun : strbufRemove strbufAbc 1 (2 ^ 64 - 1) = some (0, { strbufAbc with
      blob := some (Function.update
        (Bytes.copy (Bytes.write (fun _ => 0) 0 [97, 98, 99]) 1 0 3) 4 0), size := 4 }) := rfl
  refine ⟨?_, _, hrun, by decide⟩
  rintro ⟨mem', size', hrun', -, hle, -⟩
  rw [hrun] at hrun'
  have hsize : 4 = size' := congrArg (fun r => r.2.size) (Option.some.inj hrun')
  have hthree : strbufAbc.size = 3 := rfl
  omega

/-! ## Replacing -/

/-- A string in its block, or a new one, as the functions that allocate need it. -/
structure StrbufReady (s : Strbuf) : Prop extends StrbufString s where
  empty : s.blob = none → s.blksz = 0
  small : s.blksz < 2 ^ 64

variable {L bytes : List UInt8}

theorem StrbufHolds.contents (h : StrbufHolds s L) : s.contents = L := by
  obtain ⟨mem, hm, hL⟩ := h.blob
  rw [Strbuf.contents_eq hm, hL]

theorem StrbufReady.holds (h : StrbufReady s) (hb : s.blob ≠ none) : StrbufHolds s s.contents := by
  obtain ⟨mem, hm⟩ := Option.ne_none_iff_exists'.mp hb
  exact ⟨⟨mem, hm, (Strbuf.contents_eq hm).symm⟩, h.size, h.small⟩

theorem StrbufReady.reserve_new (h : StrbufReady s) (hb : s.blob = none)
    (hg : ∀ n, env.granted n = true) (hpos : n ≠ 0) (hn : n + 1023 < 2 ^ 64) :
    ∃ s₁, s.reserve env n = some (0, s₁) ∧ StrbufHolds s₁ [] ∧ s₁.size = s.size ∧ n ≤ s₁.blksz := by
  obtain ⟨hge, hsmall⟩ := strbufCapacity_ge hn
  have hblk := h.empty hb
  have hsize := h.null hb
  have hlt : n > s.blksz := by omega
  unfold Strbuf.reserve
  rw [if_pos hlt]
  rw [Strbuf.resize_eq h.held fun hc => absurd hb hc, hg, if_pos rfl]
  refine ⟨_, rfl, ⟨⟨_, rfl, ?_⟩, ?_, hsmall⟩, rfl, hge⟩
  · simp [hsize, Bytes.read]
  · simp [hsize]

/-- `strbuf_replace` puts `bytes` in the place of `size` bytes at `index`. -/
def StrbufReplaces (env : Allocator) (s : Strbuf) (index size : ℕ) (bytes : List UInt8) : Prop :=
  ∃ s', strbufReplace env s index size bytes = some (0, s') ∧
    s'.contents = s.contents.take index ++ bytes ++ s.contents.drop (index + size)

theorem strbufReplace_fast (h : StrbufReady s) (hin : index + bytes.length ≤ s.size) :
    ∃ s', strbufReplace env s index bytes.length bytes = some (0, s') ∧
      s'.contents = s.contents.take index ++ bytes ++ s.contents.drop (index + bytes.length) := by
  have hsize := h.size
  have hsmall := h.small
  have hadd : add64 index bytes.length = index + bytes.length := add64_eq (by omega)
  unfold strbufReplace
  rw [hadd, if_pos ⟨rfl, hin⟩]
  cases hb : s.blob with
  | none =>
      have hzero := h.null hb
      obtain rfl : bytes = [] := List.length_eq_zero_iff.mp (by omega)
      refine ⟨s, rfl, ?_⟩
      simp
  | some mem =>
      rw [Strbuf.store_eq hb (by omega)]
      refine ⟨_, rfl, ?_⟩
      have hsplit : s.size = index + (bytes.length + (s.size - index - bytes.length)) := by omega
      rw [Strbuf.contents_eq hb, Bytes.read_take (by omega), Bytes.read_drop]
      change (mem.write index bytes).read 0 s.size = _
      rw [hsplit, Bytes.read_add, Bytes.read_add, Nat.zero_add,
        Bytes.read_write_outside (Or.inl (by omega)), Bytes.read_write_self,
        Bytes.read_write_outside (Or.inr (by omega)), List.append_assoc]
      congr 3 <;> omega

/-- Without the shortcut, as many bytes are removed as are put in. -/
theorem strbufReplace_slow (h : StrbufReady s) (hi : index ≤ s.size)
    (hg : ∀ n, env.granted n = true) (hn : s.size + bytes.length + 1023 < 2 ^ 64)
    (hslow : ¬ (size = bytes.length ∧ index + bytes.length ≤ s.size))
    (hnull : s.blob = none → bytes ≠ []) :
    ∃ s', strbufReplace env s index size bytes = some (0, s') ∧
      s'.contents = s.contents.take index ++ bytes ++ s.contents.drop (index + bytes.length) := by
  have hadd : add64 index bytes.length = index + bytes.length := add64_eq (by omega)
  have hlen := s.length_contents
  have hins : ∃ s₁ s', (∃ rc, strbufRemove s index bytes.length = some (rc, s₁)) ∧
      strbufInsert env s₁ index bytes = some (0, s') ∧
      s'.contents = s.contents.take index ++ bytes ++ s.contents.drop (index + bytes.length) := by
    by_cases hb : s.blob = none
    · have hzero := h.null hb
      obtain rfl : index = 0 := by omega
      have hpos : bytes.length ≠ 0 := fun hz => hnull hb (List.length_eq_zero_iff.mp hz)
      have hmax : max s.size 0 + bytes.length = bytes.length := by omega
      obtain ⟨s₁, hres, h₁, hsize₁, hle⟩ :=
        h.reserve_new hb hg (n := max s.size 0 + bytes.length) (by omega) (by omega)
      obtain ⟨s', hrun, h'⟩ := strbufInsert_reserved h₁ (by omega) hres hsize₁ hle
      refine ⟨s, s', ⟨-1, ?_⟩, hrun, ?_⟩
      · unfold strbufRemove
        rw [if_pos (Or.inl (by omega))]
      · have hempty : s.contents = [] := List.length_eq_zero_iff.mp (by omega)
        rw [h'.contents, hempty]
        simp [insertBytes]
    · have h₀ := h.holds hb
      have hsum : index + bytes.length < 2 ^ 64 := by omega
      obtain ⟨s₁, hrem, h₁⟩ := strbufRemove_spec h₀ hsum
      have hleft : (strbufEdit s.contents (.remove index bytes.length)).2 =
          s.contents.take index ++ s.contents.drop (index + bytes.length) := by
        simp only [strbufEdit]
        split_ifs with hbad
        · rcases hbad with hge | hz
          · rw [List.take_of_length_le (by omega), List.drop_of_length_le (by omega),
              List.append_nil]
          · rw [hz, Nat.add_zero, List.take_append_drop]
        · rfl
      have htake : (s.contents.take index).length = index := by
        rw [List.length_take]
        omega
      rw [hleft] at h₁
      have hshort : (s.contents.take index ++ s.contents.drop (index + bytes.length)).length ≤
          s.size := by
        rw [List.length_append, htake, List.length_drop]
        omega
      have hgrow : max (s.contents.take index ++ s.contents.drop (index + bytes.length)).length
          index + bytes.length + 1023 < 2 ^ 64 := by omega
      obtain ⟨s', hrun, h'⟩ := strbufInsert_spec h₁ hg hgrow
      refine ⟨s₁, s', ⟨_, hrem⟩, hrun, ?_⟩
      have hgap : index - (s.contents.take index ++
          s.contents.drop (index + bytes.length)).length = 0 := by
        rw [List.length_append, htake]
        omega
      rw [h'.contents, insertBytes, hgap, List.take_left' htake, List.drop_left' htake,
        List.replicate_zero, List.append_nil]
  obtain ⟨s₁, s', ⟨rc, hrem⟩, hrun, hcontents⟩ := hins
  refine ⟨s', ?_, hcontents⟩
  unfold strbufReplace
  rw [hadd, if_neg hslow]
  simp only [hrem, hrun, ne_eq, not_true_eq_false, if_false, Option.bind_eq_bind,
    Option.bind_some, Option.pure_def]

theorem strbufReplace_null (h : StrbufReady s) (hi : index ≤ s.size) (hb : s.blob = none)
    (hsize : size ≠ 0) : strbufReplace env s index size [] = none := by
  have hzero := h.null hb
  obtain rfl : index = 0 := by omega
  have hslow : ¬ (size = ([] : List UInt8).length ∧ add64 0 ([] : List UInt8).length ≤ s.size) :=
    fun hc => hsize hc.1
  have hrem : strbufRemove s 0 ([] : List UInt8).length = some (-1, s) := by
    exact if_pos (Or.inr rfl)
  have hins : strbufInsert env s 0 [] = none := by
    have hres : s.reserve env 0 = some (0, s) := if_neg (Nat.not_lt_zero _)
    simp [strbufInsert, hzero, add64, hres, Strbuf.move, Strbuf.store, Strbuf.terminate, hb]
  unfold strbufReplace
  rw [if_neg hslow]
  simp only [hrem, hins, Option.bind_eq_bind, Option.bind_some, Option.bind_none]

theorem drop_eq_drop_iff {α : Type} {L : List α} {a b : ℕ} :
    L.drop a = L.drop b ↔ a = b ∨ L.length ≤ a ∧ L.length ≤ b := by
  constructor
  · intro h
    have hlen := congrArg List.length h
    rw [List.length_drop, List.length_drop] at hlen
    omega
  · rintro (rfl | ⟨ha, hb⟩)
    · rfl
    · rw [List.drop_of_length_le ha, List.drop_of_length_le hb]

/-- The bytes that are removed are as many as those put in, so the two numbers must be the same
or both reach the end of the string. -/
theorem strbufReplace_replaces (h : StrbufReady s) (hi : index ≤ s.size)
    (hg : ∀ n, env.granted n = true) (hn : s.size + bytes.length + 1023 < 2 ^ 64) :
    StrbufReplaces env s index size bytes ↔
      (size = bytes.length ∨ s.size ≤ index + size ∧ s.size ≤ index + bytes.length) ∧
        (s.blob = none → bytes = [] → size = 0) := by
  have hlen := s.length_contents
  -- Whenever it returns, the string after what was put in starts `bytes.length` behind `index`.
  have hshift : ∀ s', strbufReplace env s index size bytes = some (0, s') →
      s'.contents = s.contents.take index ++ bytes ++ s.contents.drop (index + bytes.length) →
      (StrbufReplaces env s index size bytes ↔
        size = bytes.length ∨ s.size ≤ index + size ∧ s.size ≤ index + bytes.length) := by
    intro s' hrun hs'
    have hdrop : s.contents.drop (index + size) = s.contents.drop (index + bytes.length) ↔
        size = bytes.length ∨ s.size ≤ index + size ∧ s.size ≤ index + bytes.length := by
      rw [drop_eq_drop_iff, hlen, Nat.add_left_cancel_iff]
    rw [← hdrop]
    constructor
    · rintro ⟨s₁, hrun', hs₁⟩
      obtain rfl := (Prod.mk.inj (Option.some.inj (hrun.symm.trans hrun'))).2
      rw [hs'] at hs₁
      exact (List.append_cancel_left hs₁).symm
    · intro heq
      exact ⟨s', hrun, heq ▸ hs'⟩
  by_cases hfast : size = bytes.length ∧ index + bytes.length ≤ s.size
  · obtain ⟨rfl, hin⟩ := hfast
    obtain ⟨s', hrun, hs'⟩ := strbufReplace_fast h hin
    rw [hshift s' hrun hs']
    refine ⟨fun hc => ⟨hc, fun _ hnil => hnil ▸ rfl⟩, fun hc => hc.1⟩
  · by_cases hnull : s.blob = none ∧ bytes = []
    · obtain ⟨hb, rfl⟩ := hnull
      have hzero := h.null hb
      have hsize : size ≠ 0 := fun hz => hfast ⟨hz, by rw [List.length_nil]; omega⟩
      refine ⟨?_, fun hc => absurd (hc.2 hb rfl) hsize⟩
      rintro ⟨s', hrun, -⟩
      rw [strbufReplace_null h hi hb hsize] at hrun
      cases hrun
    · obtain ⟨s', hrun, hs'⟩ := strbufReplace_slow h hi hg hn hfast
        fun hb hnil => hnull ⟨hb, hnil⟩
      rw [hshift s' hrun hs']
      exact ⟨fun hc => ⟨hc, fun hb hnil => absurd ⟨hb, hnil⟩ hnull⟩, fun hc => hc.1⟩

theorem strbufAbc_ready : StrbufReady strbufAbc :=
  ⟨strbufAbc_string, fun hc => (nomatch hc), by decide⟩

theorem strbufReplace_replaces_same :
    StrbufReplaces ⟨fun _ => true, fun _ _ => 0⟩ strbufAbc 1 1 [120] :=
  (strbufReplace_replaces strbufAbc_ready (by decide) (fun _ => rfl) (by decide)).mpr
    ⟨Or.inl rfl, fun hc => (nomatch hc)⟩

/-- Two bytes are removed where one should be. -/
theorem strbufReplace_overwrites :
    ¬ StrbufReplaces ⟨fun _ => true, fun _ _ => 0⟩ strbufAbc 0 1 [120, 121] ∧
    ∃ s', strbufReplace ⟨fun _ => true, fun _ _ => 0⟩ strbufAbc 0 1 [120, 121] = some (0, s') ∧
      s'.contents = [120, 121, 99] := by
  have hrun : ∃ s', strbufReplace ⟨fun _ => true, fun _ _ => 0⟩ strbufAbc 0 1 [120, 121] =
      some (0, s') ∧ s'.contents = [120, 121, 99] := ⟨_, rfl, by decide⟩
  refine ⟨?_, hrun⟩
  rintro ⟨s₁, hrun₁, hs₁⟩
  obtain ⟨s', hrun', hs'⟩ := hrun
  obtain rfl := (Prod.mk.inj (Option.some.inj (hrun₁.symm.trans hrun'))).2
  rw [hs'] at hs₁
  exact absurd hs₁ (by decide)

end Carthage
