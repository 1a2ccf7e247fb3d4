import Carthage.MmstreamCalls

/-!
# Where reads of a stream end

A read that finds the extent of its offset returns the bytes up to the first one without a block.
A lookup behind the last extent finds nothing or the extent before.
-/

namespace Carthage

variable {granted : ℕ → Bool} {s s' : Mmstream} {es : List ℕ} {l : MmLocation}
  {offset pos size n k p fuel : ℕ}

/-- The byte at a position, in the extents from the first one on. -/
def Mmstream.byteAt (s : Mmstream) (p : ℕ) : Option UInt8 := do
  let a ← (mmextentWalk s MmExtent.next (p / 2 ^ 15) s.head).join
  let e ← s.store.nodes a
  let block ← e.blocks (p / 2 ^ 9 % 2 ^ 6)
  return block (p % 2 ^ 9)

/-- At most `n` bytes from `p` on, up to the first position that has none. -/
def Mmstream.bytesFrom (s : Mmstream) : ℕ → ℕ → List UInt8
  | 0, _ => []
  | n + 1, p =>
      match s.byteAt p with
      | none => []
      | some b => b :: s.bytesFrom n (p + 1)

theorem ExtentsShape.byteAt (h : ExtentsShape s es) (p : ℕ) : s.byteAt p =
    es[p / 2 ^ 15]?.bind fun a => (s.store.nodes a).bind fun e =>
      (e.blocks (p / 2 ^ 9 % 2 ^ 6)).map (· (p % 2 ^ 9)) := by
  have hwalk : (mmextentWalk s MmExtent.next (p / 2 ^ 15) s.head).join = es[p / 2 ^ 15]? := by
    rw [h.head]
    rcases Nat.lt_or_ge es.length (p / 2 ^ 15) with hlt | hge
    · rw [mmextentWalk_off h (by omega) (Nat.zero_le _), List.getElem?_eq_none hlt.le]
      rfl
    · rw [mmextentWalk_next h (by omega), Nat.zero_add]
      rfl
  unfold Mmstream.byteAt
  rw [hwalk]
  simp only [Option.map_eq_bind, Option.bind_eq_bind, Option.pure_def]
  rfl

theorem ExtentsShape.byteAt_eq {a : ℕ} {e : MmExtent} (h : ExtentsShape s es)
    (ha : es[p / 2 ^ 15]? = some a) (he : s.store.nodes a = some e) :
    s.byteAt p = (e.blocks (p / 2 ^ 9 % 2 ^ 6)).map (· (p % 2 ^ 9)) := by
  rw [h.byteAt, ha, Option.bind_some, he, Option.bind_some]

theorem ExtentsShape.byteAt_none (h : ExtentsShape s es) (hp : es[p / 2 ^ 15]? = none) :
    s.byteAt p = none := by
  rw [h.byteAt, hp]
  rfl

/-! ## Bytes up to the first gap -/

theorem bytesFrom_none (hp : s.byteAt p = none) (n : ℕ) : s.bytesFrom n p = [] := by
  cases n with
  | zero => rfl
  | succ n =>
      unfold Mmstream.bytesFrom
      rw [hp]

theorem bytesFrom_congr (h : ∀ i < n, s'.byteAt (p + i) = s.byteAt (p + i)) :
    s'.bytesFrom n p = s.bytesFrom n p := by
  induction n generalizing p with
  | zero => rfl
  | succ n ih =>
      have hfirst : s'.byteAt p = s.byteAt p := h 0 (Nat.succ_pos n)
      have hrest := ih (p := p + 1) fun i hi => by
        rw [Nat.add_assoc, Nat.add_comm 1 i]
        exact h (i + 1) (by omega)
      unfold Mmstream.bytesFrom
      rw [hfirst, hrest]

theorem bytesFrom_add {f : ℕ → UInt8} (h : ∀ i < k, s.byteAt (p + i) = some (f i)) (n : ℕ) :
    s.bytesFrom (k + n) p = (List.range k).map f ++ s.bytesFrom n (p + k) := by
  induction k generalizing p f with
  | zero =>
      rw [Nat.zero_add, List.range_zero]
      rfl
  | succ k ih =>
      have hfirst : s.byteAt p = some (f 0) := h 0 (Nat.succ_pos k)
      have hrest := ih (p := p + 1) (f := fun i => f (i + 1)) fun i hi => by
        rw [Nat.add_assoc, Nat.add_comm 1 i]
        exact h (i + 1) (by omega)
      have hsucc : k + 1 + n = k + n + 1 := by omega
      have hpos : p + (k + 1) = p + 1 + k := by omega
      rw [hsucc, hpos, List.range_succ_eq_map, List.map_cons, List.map_map, List.cons_append]
      conv => lhs; unfold Mmstream.bytesFrom
      rw [hfirst, hrest]
      rfl

theorem length_bytesFrom (hle : k ≤ n) (p : ℕ) :
    (s.bytesFrom k p).length = min k (s.bytesFrom n p).length := by
  induction k generalizing n p with
  | zero =>
      rw [Nat.zero_min]
      rfl
  | succ k ih =>
      obtain ⟨m, rfl⟩ : ∃ m, n = m + 1 := ⟨n - 1, by omega⟩
      unfold Mmstream.bytesFrom
      cases s.byteAt p with
      | none => rfl
      | some b =>
          have hrest := ih (n := m) (by omega) (p + 1)
          simp only [List.length_cons, hrest]
          omega

/-! ## Reading -/

/-- From the location of a position in the list, the loop of `mmstream_read` gives the bytes up to
the first gap. -/
theorem mmstreamReadLoop_bytes (h : ExtentsShape s es) (hat : l.At es pos)
    (hin : pos / 2 ^ 15 < es.length) (hn : n ≤ size) (hfuel : size - n < fuel) :
    mmstreamReadLoop s size fuel l n = some (s.bytesFrom (size - n) pos) := by
  induction fuel generalizing n l pos with
  | zero => omega
  | succ fuel ih =>
      unfold mmstreamReadLoop
      by_cases hlt : n < size
      · obtain ⟨hext, hoff, hblk, havail⟩ := id hat
        obtain ⟨a, ha⟩ : ∃ a, es[pos / 2 ^ 15]? = some a := ⟨_, List.getElem?_eq_getElem hin⟩
        obtain ⟨e, he, -, -⟩ := h.node _ _ ha
        rw [if_pos hlt, hext, ha, hoff, hblk, havail]
        rw [Option.bind_eq_bind, Option.bind_some, he, Option.bind_eq_bind, Option.bind_some]
        cases hblock : e.blocks (pos / 2 ^ 9 % 2 ^ 6) with
        | none =>
            have hnone : s.byteAt pos = none := by
              rw [h.byteAt_eq ha he, hblock]
              rfl
            rw [bytesFrom_none hnone]
            rfl
        | some block =>
            generalize hk : min (size - n) (2 ^ 9 - pos % 2 ^ 9) = k
            have hbytes : ∀ i < k, s.byteAt (pos + i) = some (block (pos % 2 ^ 9 + i)) := by
              intro i hi
              have h1 : (pos + i) / 2 ^ 15 = pos / 2 ^ 15 := by omega
              have h2 : (pos + i) / 2 ^ 9 % 2 ^ 6 = pos / 2 ^ 9 % 2 ^ 6 := by omega
              have h3 : (pos + i) % 2 ^ 9 = pos % 2 ^ 9 + i := by omega
              rw [h.byteAt_eq (h1.symm ▸ ha) he, h2, hblock, h3]
              rfl
            obtain ⟨l', hnext, hat'⟩ := mmlocationNext_spec h hat hin rfl
            generalize hq : (pos / 512 + 1) * 512 = q at hnext hat'
            have hrest : (if decide (es[q / 2 ^ 15]? = none) = true then some []
                else mmstreamReadLoop s size fuel l' (n + k)) =
                  some (s.bytesFrom (size - (n + k)) (pos + k)) := by
              rcases Nat.lt_or_ge (n + k) size with hmore | hend
              · have hpos : pos + k = q := by omega
                rw [hpos]
                split_ifs with hstop
                · rw [bytesFrom_none (h.byteAt_none (of_decide_eq_true hstop))]
                · have hin' : q / 2 ^ 15 < es.length := by
                    by_contra hge
                    exact hstop (decide_eq_true (List.getElem?_eq_none (not_lt.mp hge)))
                  exact ih hat' hin' hmore.le (by omega)
              · have hzero : size - (n + k) = 0 := Nat.sub_eq_zero_of_le hend
                have hdone : mmstreamReadLoop s size fuel l' (n + k) = some [] := by
                  cases fuel with
                  | zero => omega
                  | succ fuel =>
                      unfold mmstreamReadLoop
                      exact if_neg (not_lt.mpr hend)
                rw [hdone, ite_self, hzero]
                rfl
            have hsplit : size - n = k + (size - (n + k)) := by omega
            dsimp only
            rw [if_neg (by omega), if_pos (by omega), hnext, Option.bind_eq_bind, Option.bind_some]
            dsimp only
            rw [hrest, hsplit, bytesFrom_add hbytes]
            rfl
      · have hzero : size - n = 0 := by omega
        rw [if_neg hlt, hzero]
        rfl

theorem mmstreamRead_lookup (h : ExtentsShape s es) (hoff : offset < 2 ^ 64) {q : ℕ}
    (hat : mmextentAt s (offset / 2 ^ 15) = some es[q / 2 ^ 15]?)
    (hq : q % 2 ^ 15 = offset % 2 ^ 15) (hin : q / 2 ^ 15 < es.length) (size : ℕ) :
    mmstreamRead s offset size = some ((s.bytesFrom (size % 2 ^ 31) q).length,
      s.bytesFrom (size % 2 ^ 31) q) := by
  obtain ⟨l, hl, hcompute⟩ := mmlocationCompute_eq es s hoff
  obtain ⟨-, hext, hblk, havail⟩ := (hl _).mpr rfl
  have hat' : { l with extent := es[q / 2 ^ 15]? : MmLocation }.At es q := by
    refine ⟨rfl, ?_, ?_, ?_⟩
    · change l.extOff = _
      dsimp only at hext
      omega
    · change l.blkOff = _
      dsimp only at hblk
      omega
    · change l.blkAvail = _
      dsimp only at havail
      omega
  have hloop := mmstreamReadLoop_bytes h hat' hin (Nat.zero_le (size % 2 ^ 31))
    (show size % 2 ^ 31 - 0 < size % 2 ^ 31 + 1 by omega)
  unfold mmstreamRead
  rw [hcompute, hat, Option.map_some, Option.bind_eq_bind, Option.bind_some, hloop]
  rfl

theorem mmstreamRead_lost (hoff : offset < 2 ^ 64)
    (hat : mmextentAt s (offset / 2 ^ 15) = none) (size : ℕ) :
    mmstreamRead s offset size = none := by
  obtain ⟨l, -, hcompute⟩ := mmlocationCompute_eq [] s hoff
  unfold mmstreamRead
  rw [hcompute, hat]
  rfl

theorem mmstreamRead_behind (hoff : offset < 2 ^ 64)
    (hat : mmextentAt s (offset / 2 ^ 15) = some none) (size : ℕ) :
    mmstreamRead s offset size = if size % 2 ^ 31 = 0 then some (0, []) else none := by
  obtain ⟨l, -, hcompute⟩ := mmlocationCompute_eq [] s hoff
  unfold mmstreamRead
  rw [hcompute, hat, Option.map_some, Option.bind_eq_bind, Option.bind_some]
  unfold mmstreamReadLoop
  split_ifs with hlt hzero hzero
  · omega
  · rfl
  · rfl
  · omega

/-! ## The number of bytes read -/

/-- The read stays in the list and counts the bytes up to the first gap, at most `size`. -/
def Mmstream.ReadsPrefix (s : Mmstream) (offset size : ℕ) : Prop :=
  ∃ bytes, mmstreamRead s offset size = some ((s.bytesFrom size offset).length, bytes)

/-- The lookup finds the extent of the offset, and what is left of the size is enough for the
bytes there. Or it finds the extent before, where the bytes up to the first gap are as many. Or
the offset is just behind a list of at most one extent, and nothing is left of the size. -/
def Mmstream.LooksRight (s : Mmstream) (offset size : ℕ) : Prop :=
  let index := offset / 2 ^ 15
  (index < s.extent ∧ Straight s.extent index ∧
      (s.bytesFrom size offset).length ≤ size % 2 ^ 31) ∨
    (index ≤ s.extent ∧ s.extent - index ≠ 1 ∧ s.extent - index < s.extent / 2 ∧
      min (size % 2 ^ 31) (s.bytesFrom size (offset - 2 ^ 15)).length =
        (s.bytesFrom size offset).length) ∨
    (index = s.extent ∧ s.extent ≤ 1 ∧ size % 2 ^ 31 = 0)

theorem mmstreamRead_iff (h : ExtentsShape s es) (hoff : offset < 2 ^ 64) (size : ℕ) :
    s.ReadsPrefix offset size ↔ s.LooksRight offset size := by
  have hcount := h.count
  have hends := mmextentAt_ends h (show offset / 2 ^ 15 < 2 ^ 49 by omega)
  have hlen : ∀ p, (s.bytesFrom (size % 2 ^ 31) p).length =
      min (size % 2 ^ 31) (s.bytesFrom size p).length :=
    fun p => length_bytesFrom (Nat.mod_le _ _) p
  unfold Mmstream.ReadsPrefix Mmstream.LooksRight
  dsimp only
  rw [hcount]
  generalize hat : mmextentAt s (offset / 2 ^ 15) = r at hends
  cases hends with
  | found hlt hs =>
      rw [mmstreamRead_lookup h hoff hat rfl hlt size, hlen]
      constructor
      · rintro ⟨bytes, heq⟩
        have hcounts := congrArg Prod.fst (Option.some.inj heq)
        exact Or.inl ⟨hlt, hs, min_eq_right_iff.mp hcounts⟩
      · rintro (⟨-, -, hfits⟩ | ⟨-, hone, hback, -⟩ | ⟨hend, -⟩)
        · rw [Nat.min_eq_right hfits]
          exact ⟨_, rfl⟩
        · exact absurd ⟨by omega, hback⟩ hs
        · omega
  | before hpos hle hne hback =>
      have hdiv : offset / 2 ^ 15 - 1 = (offset - 2 ^ 15) / 2 ^ 15 := by omega
      rw [hdiv] at hat
      rw [mmstreamRead_lookup h hoff hat (by omega) (by omega) size, hlen]
      constructor
      · rintro ⟨bytes, heq⟩
        have hcounts := congrArg Prod.fst (Option.some.inj heq)
        exact Or.inr (Or.inl ⟨hle, hne, hback, hcounts⟩)
      · rintro (⟨hlt, hs, -⟩ | ⟨-, -, -, hcounts⟩ | ⟨-, hone, -⟩)
        · exact absurd ⟨by omega, hback⟩ hs
        · rw [hcounts]
          exact ⟨_, rfl⟩
        · omega
  | behind hend hfew =>
      have hnone : s.byteAt offset = none :=
        h.byteAt_none (List.getElem?_eq_none hend.ge)
      rw [mmstreamRead_behind hoff hat, bytesFrom_none hnone]
      constructor
      · rintro ⟨bytes, heq⟩
        split_ifs at heq with hzero
        exact Or.inr (Or.inr ⟨hend, hfew, hzero⟩)
      · rintro (⟨hlt, -⟩ | ⟨-, -, hback, -⟩ | ⟨-, -, hzero⟩)
        · omega
        · omega
        · exact ⟨[], if_pos hzero⟩
  | lost hgt =>
      rw [mmstreamRead_lost hoff hat]
      constructor
      · rintro ⟨bytes, heq⟩
        cases heq
      · omega

/-- On every stream that calls leave, a read of any range returns the number of bytes up to the
first gap exactly when its lookup goes right. -/
theorem mmstreamRead_prefix (granted : ℕ → Bool) (calls : List MmstreamCall) (rs : List ℤ)
    (s : Mmstream) (hcalls : ∀ call ∈ calls, call.InRange)
    (hrun : runAll (mmstreamCall granted) mmstreamAlloc calls = some (rs, s)) (offset size : ℕ)
    (hoff : offset < 2 ^ 64) : s.ReadsPrefix offset size ↔ s.LooksRight offset size := by
  obtain ⟨es, h⟩ := mmstreamCalls_shape hcalls hrun
  exact mmstreamRead_iff h hoff size

theorem mmstreamRead_prefix_written : ∃ s,
    runAll (mmstreamCall fun _ => true) mmstreamAlloc [.write [7] 3 1] = some ([1], s) ∧
      (s.ReadsPrefix 2 5 ↔ s.LooksRight 2 5) := by
  refine ⟨_, rfl, ?_⟩
  apply mmstreamRead_prefix (fun _ => true) [.write [7] 3 1] [1] _ _ rfl
  · norm_num
  · intro call hmem
    obtain rfl := List.mem_singleton.mp hmem
    change 3 < 2 ^ 64
    norm_num

theorem readsPrefix_masked {b : UInt8} (hb : s.byteAt offset = some b) :
    ¬ s.ReadsPrefix offset (2 ^ 31) := by
  rintro ⟨bytes, heq⟩
  have hone : (s.bytesFrom 1 offset).length = 1 := by
    unfold Mmstream.bytesFrom
    rw [hb]
    rfl
  rw [length_bytesFrom (show 1 ≤ 2 ^ 31 by norm_num)] at hone
  obtain ⟨l, -, heq⟩ := Option.bind_eq_some_iff.mp heq
  have hcounts : 0 = _ := congrArg Prod.fst (Option.some.inj heq)
  omega

/-- A read of an empty stream goes through a null pointer, and so does one two extents behind a
byte. A read of `2 ^ 31` bytes where there is one gives none. -/
theorem mmstreamRead_null : ¬ mmstreamAlloc.ReadsPrefix 0 1 ∧ ∃ s,
    runAll (mmstreamCall fun _ => true) mmstreamAlloc [.write [7] 0 1] = some ([1], s) ∧
      ¬ s.ReadsPrefix (2 * 2 ^ 15) 1 ∧ ¬ s.ReadsPrefix 0 (2 ^ 31) := by
  refine ⟨?_, _, rfl, ?_, ?_⟩
  · rintro ⟨bytes, heq⟩
    cases heq
  · rintro ⟨bytes, heq⟩
    cases heq
  · exact readsPrefix_masked rfl

end Carthage
