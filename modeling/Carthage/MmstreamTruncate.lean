import Carthage.MmstreamRead

/-!
# Cutting a stream

A truncation strictly inside the last extent clears the bytes from the cut on and frees nothing.
Any shorter size frees extents, and the first of them is read and kept as the tail.
-/

namespace Carthage

variable {granted : ℕ → Bool} {s s' : Mmstream} {es : List ℕ} {l : MmLocation} {e : MmExtent}
  {blocks blocks' : ℕ → Option Bytes} {a k p size fuel cut : ℕ} {b : UInt8}

theorem NodeStore.put_put {N : Type} (s : NodeStore N) (a : ℕ) (n m : N) :
    (s.put a n).put a m = s.put a m := by
  unfold NodeStore.put
  rw [Function.update_idem]

theorem NodeStore.put_eq_self {N : Type} {s : NodeStore N} {a : ℕ} {n : N}
    (ha : s.nodes a = some n) : s.put a n = s := by
  unfold NodeStore.put
  rw [← ha, Function.update_eq_self]

/-! ## Clearing to the end of an extent -/

/-- The bytes of an extent from `cut` on are zero, in the blocks there are. -/
def ZeroedFrom (cut : ℕ) (blocks blocks' : ℕ → Option Bytes) : Prop :=
  ∀ k i, k < 64 → i < 512 →
    (blocks' k).map (· i) = (blocks k).map fun block => if cut ≤ 512 * k + i then 0 else block i

theorem ZeroedFrom.below {i : ℕ} (h : ZeroedFrom cut blocks blocks') (hk : k < 64) (hi : i < 512)
    (hlt : 512 * k + i < cut) : (blocks' k).map (· i) = (blocks k).map (· i) := by
  rw [h k i hk hi]
  simp only [if_neg (not_le.mpr hlt)]

theorem ZeroedFrom.above {i : ℕ} (h : ZeroedFrom cut blocks blocks') (hk : k < 64) (hi : i < 512)
    (hle : cut ≤ 512 * k + i) : (blocks' k).map (· i) = (blocks k).map fun _ => 0 := by
  rw [h k i hk hi]
  simp only [if_pos hle]

theorem mmstreamZeroBlock_spec (he : s.store.nodes a = some e) (hblk : l.blkOff < 512)
    (havail : l.blkAvail = 512 - l.blkOff) :
    ∃ blocks, mmstreamZeroBlock s e a l =
        some { s with store := s.store.put a { e with blocks := blocks } } ∧
      (∀ k, k ≠ l.extOff → blocks k = e.blocks k) ∧
      ∀ i < 512, (blocks l.extOff).map (· i) =
        (e.blocks l.extOff).map fun block => if l.blkOff ≤ i then 0 else block i := by
  unfold mmstreamZeroBlock
  cases hb : e.blocks l.extOff with
  | none =>
      refine ⟨e.blocks, ?_, fun _ _ => rfl, fun i _ => ?_⟩
      · rw [NodeStore.put_eq_self he]
      · rw [hb]
        rfl
  | some block =>
      have hlen : (List.replicate l.blkAvail (0 : UInt8)).length = 512 - l.blkOff := by
        rw [List.length_replicate, havail]
      let block' := block.write l.blkOff (List.replicate l.blkAvail 0)
      have hcopy : block.memcpy 0 512 l.blkOff (List.replicate l.blkAvail 0) = some block' :=
        Bytes.memcpy_eq ⟨Nat.zero_le _, by omega⟩
      refine ⟨Function.update e.blocks l.extOff (some block'), ?_,
        fun k hk => Function.update_of_ne hk _ _, fun i hi => ?_⟩
      · dsimp only
        rw [hcopy]
        rfl
      · rw [Function.update_self, Option.map_some, Option.map_some]
        congr 1
        split_ifs with hle
        · change block.write l.blkOff (List.replicate l.blkAvail 0) i = 0
          rw [Bytes.write, if_pos hle, List.getD_eq_getElem?_getD,
            List.getElem?_replicate_of_lt (by omega), Option.getD_some]
        · exact Bytes.write_of_lt (by omega)

/-- From a location in the last extent, the loop clears the rest of it. -/
theorem mmstreamZeroLoop_last (he : s.store.nodes a = some e) (hnext : e.next = none)
    (hl : l.extent = some a) (hoff : l.extOff < 64) (hblk : l.blkOff < 512)
    (havail : l.blkAvail = 512 - l.blkOff) (hfuel : 64 ≤ l.extOff + fuel) :
    ∃ l' blocks', mmstreamZeroLoop (some a) fuel s l =
        some (l', { s with store := s.store.put a { e with blocks := blocks' } }) ∧
      l'.extent = none ∧ ZeroedFrom (512 * l.extOff + l.blkOff) e.blocks blocks' := by
  induction fuel generalizing s e l with
  | zero => omega
  | succ fuel ih =>
      obtain ⟨blocks₁, hzero, hother, hsame⟩ := mmstreamZeroBlock_spec he hblk havail
      let e₁ : MmExtent := { e with blocks := blocks₁ }
      let s₁ : Mmstream := { s with store := s.store.put a e₁ }
      have he₁ : s₁.store.nodes a = some e₁ := NodeStore.put_self s.store a e₁
      rw [mmstreamZeroLoop_succ hl he, hzero, Option.bind_some]
      change ∃ l' blocks', (mmlocationNext s₁ l).bind _ = _ ∧ _
      unfold mmlocationNext
      rw [hl]
      by_cases hend : l.extOff + 1 = 64
      · rw [if_pos hend, Option.bind_eq_bind, Option.bind_some, he₁]
        refine ⟨⟨e.next, l.extNr + 1, 0, 0, 512⟩, blocks₁, ?_, hnext, fun k i hk hi => ?_⟩
        · rw [Option.bind_eq_bind, Option.bind_some, Option.pure_def, Option.bind_some,
            if_neg (by rw [hnext]; exact (Option.some_ne_none a).symm)]
        · rcases eq_or_ne k l.extOff with rfl | hne
          · rw [hsame i hi]
            congr 1
            funext block
            congr 1
            apply propext
            omega
          · rw [hother k hne]
            simp only [if_neg (show ¬512 * l.extOff + l.blkOff ≤ 512 * k + i by omega)]
      · rw [if_neg hend]
        obtain ⟨l', blocks₂, hloop, hl', hzeroed⟩ := ih (s := s₁) (e := e₁)
          (l := ⟨some a, l.extNr, l.extOff + 1, 0, 512⟩) he₁ hnext rfl (by dsimp only; omega)
          (by norm_num) rfl (by dsimp only; omega)
        have hrest : ZeroedFrom (512 * (l.extOff + 1)) blocks₁ blocks₂ := hzeroed
        refine ⟨l', blocks₂, ?_, hl', fun k i hk hi => ?_⟩
        · rw [Option.bind_some, if_pos rfl, hloop]
          dsimp only [s₁, e₁]
          rw [NodeStore.put_put]
        · rcases Nat.lt_trichotomy k l.extOff with hlt | rfl | hgt
          · rw [hrest.below hk hi (by omega), hother k hlt.ne]
            simp only [if_neg (show ¬512 * l.extOff + l.blkOff ≤ 512 * k + i by omega)]
          · rw [hrest.below hk hi (by omega), hsame i hi]
            congr 1
            funext block
            congr 1
            apply propext
            omega
          · rw [hrest.above hk hi (by omega), hother k hgt.ne']
            simp only [if_pos (show 512 * l.extOff + l.blkOff ≤ 512 * k + i by omega)]

/-! ## The stream after a cut -/

/-- What a truncation to `size` leaves: the bytes below and the reads of them, no other byte than
zero from there on, and a list of extents that can be cleared. -/
structure Mmstream.CutAt (s : Mmstream) (size : ℕ) (s' : Mmstream) : Prop where
  below : ∀ p < size, s'.byteAt p = s.byteAt p
  reads : ∀ offset n, offset + n ≤ size → mmstreamRead s' offset n = mmstreamRead s offset n
  gone : ∀ p b, size ≤ p → s'.byteAt p = some b → b = 0
  list : ∃ es, ExtentsShape s' es
  clears : ∃ s'', mmstreamClear s' = some s''

def Mmstream.Truncates (s : Mmstream) (size : ℕ) : Prop :=
  ∃ s', mmstreamTruncate s size = some s' ∧ s.CutAt size s'

theorem LookupEnds.unique {N index : ℕ} {r r' : Option (Option ℕ)} (h : LookupEnds N index es r)
    (h' : LookupEnds N index es r') : r = r' := by
  cases h with
  | found hlt hs =>
      cases h' with
      | found => rfl
      | before hpos hle hne hback => exact absurd ⟨by omega, hback⟩ hs
      | behind hend => omega
      | lost hgt => omega
  | before hpos hle hne hback =>
      cases h' with
      | found hlt hs => exact absurd ⟨by omega, hback⟩ hs
      | before => rfl
      | behind hend hfew => omega
      | lost hgt => omega
  | behind hend hfew =>
      cases h' with
      | found hlt => omega
      | before hpos hle hne hback => omega
      | behind => rfl
      | lost hgt => omega
  | lost hgt =>
      cases h' with
      | found hlt => omega
      | before hpos hle => omega
      | behind hend => omega
      | lost => rfl

theorem mmstreamRead_congr (h : ExtentsShape s es) (h' : ExtentsShape s' es)
    (hbytes : ∀ p < size, s'.byteAt p = s.byteAt p) (hsize : size < es.length * 2 ^ 15)
    {offset n : ℕ} (hle : offset + n ≤ size) :
    mmstreamRead s' offset n = mmstreamRead s offset n := by
  have hsmall := h.small
  have hends := mmextentAt_ends h (show offset / 2 ^ 15 < 2 ^ 49 by omega)
  have hends' := mmextentAt_ends h' (show offset / 2 ^ 15 < 2 ^ 49 by omega)
  have hsame := hends'.unique hends
  have hn : n % 2 ^ 31 ≤ n := Nat.mod_le _ _
  generalize hat : mmextentAt s (offset / 2 ^ 15) = r at hends
  rw [hat] at hsame
  cases hends with
  | found hlt hs =>
      rw [mmstreamRead_lookup h (by omega) hat rfl hlt,
        mmstreamRead_lookup h' (by omega) hsame rfl hlt,
        bytesFrom_congr fun i hi => hbytes _ (by omega)]
  | before hpos hle' hne hback =>
      have hdiv : offset / 2 ^ 15 - 1 = (offset - 2 ^ 15) / 2 ^ 15 := by omega
      rw [hdiv] at hat hsame
      rw [mmstreamRead_lookup h (by omega) hat (by omega) (by omega),
        mmstreamRead_lookup h' (by omega) hsame (by omega) (by omega),
        bytesFrom_congr fun i hi => hbytes _ (by omega)]
  | behind hend hfew => omega
  | lost hgt => omega

theorem ExtentsShape.byteAt_cut (h : ExtentsShape s es)
    (ha : es[es.length - 1]? = some a) (he : s.store.nodes a = some e)
    (hzeroed : ZeroedFrom cut e.blocks blocks') (requests p : ℕ) :
    Mmstream.byteAt { s with
      store := s.store.put a { e with blocks := blocks' }, requests := requests } p =
        if (es.length - 1) * 2 ^ 15 + cut ≤ p then (s.byteAt p).map fun _ => 0 else s.byteAt p := by
  have h' := h.put he blocks' requests
  obtain ⟨hpos, -⟩ := List.getElem?_eq_some_iff.mp ha
  rcases Nat.lt_trichotomy (p / 2 ^ 15) (es.length - 1) with hlt | heq | hgt
  · -- another extent, which stays as it is
    obtain ⟨c, hc⟩ : ∃ c, es[p / 2 ^ 15]? = some c :=
      ⟨_, List.getElem?_eq_getElem (show p / 2 ^ 15 < es.length by omega)⟩
    obtain ⟨d, hd, -⟩ := h.node _ c hc
    have hne : c ≠ a := by
      rintro rfl
      have := (List.getElem?_inj (by omega) h.nodup).mp (hc.trans ha.symm)
      omega
    rw [if_neg (by omega), h'.byteAt_eq hc ((NodeStore.put_of_ne hne _ _).trans hd),
      h.byteAt_eq hc hd]
  · have hlast : es[p / 2 ^ 15]? = some a := heq ▸ ha
    rw [h'.byteAt_eq hlast (NodeStore.put_self _ a _), h.byteAt_eq hlast he]
    by_cases hcut : (es.length - 1) * 2 ^ 15 + cut ≤ p
    · rw [if_pos hcut, Option.map_map]
      exact hzeroed.above (by omega) (by omega) (by omega)
    · rw [if_neg hcut]
      exact hzeroed.below (by omega) (by omega) (by omega)
  · have hnone : es[p / 2 ^ 15]? = none := List.getElem?_eq_none (by omega)
    rw [h'.byteAt_none hnone, h.byteAt_none hnone, Option.map_none, ite_self]

theorem mmstreamTruncate_last (h : ExtentsShape s es) (hlt : (s.extent - 1) * 2 ^ 15 < size)
    (hsize : size < s.extent * 2 ^ 15) : s.Truncates size := by
  have hcount := h.count
  have hsmall := h.small
  have hidx : size / 2 ^ 15 = es.length - 1 := by omega
  obtain ⟨a, ha⟩ : ∃ a, es[es.length - 1]? = some a :=
    ⟨_, List.getElem?_eq_getElem (show es.length - 1 < es.length by omega)⟩
  obtain ⟨e, he, hnext, -⟩ := h.node _ a ha
  have hend : e.next = none := hnext.trans (List.getElem?_eq_none (by omega))
  have hlook : mmextentAt s (size / 2 ^ 15) = some (some a) := by
    rw [mmextentAt_spec h (by omega) (fun hback => by omega), hidx, ha]
  obtain ⟨l, hl, hcompute⟩ := mmlocationCompute_eq es s (show size < 2 ^ 64 by omega)
  obtain ⟨-, hoff, hblk, havail⟩ := (hl _).mpr rfl
  dsimp only at hoff hblk havail
  obtain ⟨l', blocks', hloop, hl', hzeroed⟩ := mmstreamZeroLoop_last
    (l := { l with extent := some a }) he hend rfl (by dsimp only; omega)
    (by dsimp only; omega) (by dsimp only; omega) (show 64 ≤ l.extOff + 64 by omega)
  let s' : Mmstream := { s with store := s.store.put a { e with blocks := blocks' } }
  have h' : ExtentsShape s' es := h.put he blocks' s.requests
  have hcut : 512 * l.extOff + l.blkOff = size % 2 ^ 15 := by omega
  have hbyte : ∀ p, s'.byteAt p = if size ≤ p then (s.byteAt p).map fun _ => 0 else s.byteAt p := by
    intro p
    have hsplit : (es.length - 1) * 2 ^ 15 + size % 2 ^ 15 = size := by omega
    have hbytes := h.byteAt_cut ha he hzeroed s.requests p
    rw [hcut, hsplit] at hbytes
    exact hbytes
  have hbelow : ∀ p < size, s'.byteAt p = s.byteAt p := fun p hp => by
    rw [hbyte p, if_neg (by omega)]
  have hgone : ∀ p b, size ≤ p → s'.byteAt p = some b → b = 0 := by
    intro p b hp hb
    rw [hbyte p, if_pos hp] at hb
    obtain ⟨c, -, hc⟩ := Option.map_eq_some_iff.mp hb
    exact hc.symm
  have hreads : ∀ offset n, offset + n ≤ size →
      mmstreamRead s' offset n = mmstreamRead s offset n := by
    intro offset n hle
    exact mmstreamRead_congr h h' hbelow (hcount ▸ hsize) hle
  obtain ⟨s'', hclear, -⟩ := mmstreamClear_shape h'
  refine ⟨s', ?_, hbelow, hreads, hgone, ⟨es, h'⟩, s'', hclear⟩
  have hzero : mmstreamZeroFrom s { l with extent := some a } = some (l', s') := by
    unfold mmstreamZeroFrom
    rw [if_pos (by dsimp only; omega)]
    exact hloop
  unfold mmstreamTruncate
  rw [hcompute, hlook, Option.map_some, Option.bind_eq_bind, Option.bind_some, hzero,
    Option.bind_eq_bind, Option.bind_some]
  dsimp only
  rw [hl']
  unfold mmextentFreeLoop
  rfl

theorem mmstreamTruncate_iff (h : ExtentsShape s es) (hsize : size < s.extent * 2 ^ 15) :
    s.Truncates size ↔ (s.extent - 1) * 2 ^ 15 < size := by
  constructor
  · rintro ⟨s', htrunc, -⟩
    have hcount := h.count
    have hsmall := h.small
    obtain ⟨hidx, hrest⟩ := (mmstreamTruncate_shape h (by omega) htrunc).2 (by omega)
    omega
  · exact fun hlt => mmstreamTruncate_last h hlt hsize

/-- On every stream that calls leave, a truncation below the end of the extents does what it is
for exactly when it cuts strictly inside the last extent. -/
theorem mmstreamTruncate_cuts (granted : ℕ → Bool) (calls : List MmstreamCall) (rs : List ℤ)
    (s : Mmstream) (hcalls : ∀ call ∈ calls, call.InRange)
    (hrun : runAll (mmstreamCall granted) mmstreamAlloc calls = some (rs, s)) (size : ℕ)
    (hsize : size < s.extent * 2 ^ 15) :
    s.Truncates size ↔ (s.extent - 1) * 2 ^ 15 < size := by
  obtain ⟨es, h⟩ := mmstreamCalls_shape hcalls hrun
  exact mmstreamTruncate_iff h hsize

theorem mmstreamTruncate_cuts_written : ∃ s,
    runAll (mmstreamCall fun _ => true) mmstreamAlloc [.write [7, 8] 9 2] = some ([2], s) ∧
      10 < s.extent * 2 ^ 15 ∧ (s.Truncates 10 ↔ (s.extent - 1) * 2 ^ 15 < 10) := by
  refine ⟨_, rfl, by decide, ?_⟩
  apply mmstreamTruncate_cuts (fun _ => true) [.write [7, 8] 9 2] [2] _ _ rfl
  · decide
  · intro call hmem
    obtain rfl := List.mem_singleton.mp hmem
    change 9 < 2 ^ 64
    norm_num

/-- To an empty stream, a truncation reads the extent that it has just freed. -/
theorem mmstreamTruncate_all : ∃ s,
    runAll (mmstreamCall fun _ => true) mmstreamAlloc [.write [7] 0 1] = some ([1], s) ∧
      0 < s.extent * 2 ^ 15 ∧ ¬ s.Truncates 0 := by
  refine ⟨_, rfl, by decide, ?_⟩
  rintro ⟨s', htrunc, -⟩
  cases htrunc

end Carthage
