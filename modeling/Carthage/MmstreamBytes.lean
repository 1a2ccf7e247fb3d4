import Carthage.Mmstream

/-!
# Streams keep the bytes written

The extents of a stream stand in a list in the order of the bytes they hold. A write puts
its bytes where a later read looks for them, as long as neither finds its first extent by
walking back from the last one.
-/

namespace Carthage

variable {granted : ℕ → Bool} {s s' : Mmstream} {es es' : List ℕ} {l : MmLocation}
  {v : ℕ → Option UInt8} {pos offset size n k fuel : ℕ} {buffer : List UInt8}

/-! ## The list of extents -/

/-- The extents of a stream, by address, first to last. -/
structure ExtentsShape (s : Mmstream) (es : List ℕ) : Prop where
  sound : s.store.Sound
  nodup : es.Nodup
  head : s.head = es[0]?
  tail : s.tail = es[es.length - 1]?
  count : s.extent = es.length
  small : es.length ≤ 2 ^ 49
  node : ∀ i a, es[i]? = some a → ∃ e, s.store.nodes a = some e ∧ e.next = es[i + 1]? ∧
    e.prev = if i = 0 then none else es[i - 1]?

/-- The bytes that a stream holds, at least where `v` has one. -/
def StreamHolds (s : Mmstream) (es : List ℕ) (v : ℕ → Option UInt8) : Prop :=
  ∀ p b, v p = some b → ∃ a e block, es[p / 2 ^ 15]? = some a ∧ s.store.nodes a = some e ∧
    e.blocks (p / 2 ^ 9 % 2 ^ 6) = some block ∧ block (p % 2 ^ 9) = b

/-- The extents of `es` are still there, with the blocks they had. -/
def SameBlocks (s s' : Mmstream) (es : List ℕ) : Prop :=
  ∀ a ∈ es, ∀ e, s.store.nodes a = some e → ∃ e', s'.store.nodes a = some e' ∧ e'.blocks = e.blocks

theorem extentsShape_alloc : ExtentsShape mmstreamAlloc [] :=
  ⟨NodeStore.sound_empty, List.nodup_nil, rfl, rfl, rfl, Nat.zero_le _, fun _ _ h => (nomatch h)⟩

theorem StreamHolds.extend (h : StreamHolds s es v) (hsame : SameBlocks s s' es)
    (hpre : es <+: es') : StreamHolds s' es' v := by
  obtain ⟨ys, rfl⟩ := hpre
  intro p b hb
  obtain ⟨a, e, block, ha, he, hblock, hbyte⟩ := h p b hb
  obtain ⟨e', he', heq⟩ := hsame a (List.mem_of_getElem? ha) e he
  refine ⟨a, e', block, ?_, he', heq ▸ hblock, hbyte⟩
  rw [List.getElem?_append_left (List.getElem?_eq_some_iff.mp ha).1, ha]

theorem ExtentsShape.notMem {a : ℕ} (h : ExtentsShape s es) (ha : s.store.nodes a = none) :
    a ∉ es := by
  intro hmem
  obtain ⟨i, hi⟩ := List.mem_iff_getElem?.mp hmem
  obtain ⟨e, he, -⟩ := h.node i a hi
  rw [ha] at he
  cases he

/-- One more extent behind the others. -/
theorem mmextentGrow_one {a : ℕ} {store : NodeStore MmExtent} (h : ExtentsShape s es)
    (htake : s.store.take (granted s.requests) ⟨none, none, fun _ => none⟩ = some (a, store))
    (hlen : es.length < 2 ^ 49) (k : ℕ) :
    ∃ s', mmextentGrow granted (k + 1) s = mmextentGrow granted k s' ∧
      ExtentsShape s' (es ++ [a]) ∧ SameBlocks s s' es := by
  obtain ⟨hdead, hnodes, hsound⟩ := h.sound.take htake
  have ha : a ∉ es := h.notMem hdead
  have halloc : mmextentAlloc granted s =
      (some a, { s with store := store, requests := s.requests + 1 }) := by
    unfold mmextentAlloc
    rw [htake]
  have hnew : store.nodes a = some ⟨none, none, fun _ => none⟩ := by
    rw [hnodes, Function.update_self]
  have hold : ∀ b, b ≠ a → store.nodes b = s.store.nodes b := by
    intro b hb
    rw [hnodes, Function.update_of_ne hb]
  have hnodup : (es ++ [a]).Nodup := List.nodup_append_comm.mp (List.nodup_cons.mpr ⟨ha, h.nodup⟩)
  have hlength : (es ++ [a]).length = es.length + 1 := List.length_append
  rcases List.eq_nil_or_concat es with rfl | ⟨ys, t, rfl⟩
  · let s' : Mmstream := ⟨store.put a ⟨none, none, fun _ => none⟩, some a, some a, s.extent + 1,
      s.requests + 1⟩
    have htail : s.tail = none := h.tail
    have hhead : s.head = none := h.head
    refine ⟨s', ?_, ⟨hsound.put hnew, hnodup, rfl, rfl, ?_, by rw [hlength]; omega, ?_⟩, ?_⟩
    · conv => lhs; unfold mmextentGrow
      simp only [halloc, htail, hhead, hnew, if_true, Option.pure_def, Option.bind_eq_bind,
        Option.bind_some]
      rfl
    · rw [hlength, ← h.count]
    · intro i b hb
      obtain ⟨hi, rfl⟩ := List.getElem?_eq_some_iff.mp hb
      obtain rfl : i = 0 := Nat.lt_one_iff.mp hi
      exact ⟨_, Function.update_self _ _ _, rfl, rfl⟩
    · exact fun b hb => absurd hb List.not_mem_nil
  · rw [List.concat_eq_append] at *
    have hne : t ≠ a := fun he => ha (he ▸ List.mem_concat_self)
    have hlast : (ys ++ [t])[ys.length]? = some t := List.getElem?_concat_length
    obtain ⟨n, hn, hnext, hprev⟩ := h.node ys.length t hlast
    have htail : s.tail = some t := by
      rw [h.tail, List.length_append, List.length_singleton, Nat.add_sub_cancel, hlast]
    have hn₁ : store.nodes t = some n := by rw [hold t hne, hn]
    have hnew₁ : (store.put t { n with next := some a }).nodes a =
        some ⟨none, none, fun _ => none⟩ := (Function.update_of_ne hne.symm _ _).trans hnew
    let store' := (store.put t { n with next := some a }).put a ⟨none, some t, fun _ => none⟩
    let s' : Mmstream := ⟨store', s.head, some a, s.extent + 1, s.requests + 1⟩
    have hat : store'.nodes t = some { n with next := some a } :=
      (Function.update_of_ne hne _ _).trans (Function.update_self _ _ _)
    have hother : ∀ b, b ≠ a → b ≠ t → store'.nodes b = s.store.nodes b := fun b hba hbt =>
      (Function.update_of_ne hba _ _).trans ((Function.update_of_ne hbt _ _).trans (hold b hba))
    have hpos : (ys ++ [t]).length = ys.length + 1 := List.length_append
    have hleft : ∀ j < (ys ++ [t]).length, (ys ++ [t] ++ [a])[j]? = (ys ++ [t])[j]? :=
      fun j hj => List.getElem?_append_left hj
    refine ⟨s', ?_, ⟨(hsound.put hn₁).put hnew₁, hnodup, ?_, ?_, ?_, ?_, ?_⟩, ?_⟩
    · conv => lhs; unfold mmextentGrow
      simp only [halloc, htail, hn₁, hnew₁, Option.pure_def, Option.bind_eq_bind,
        Option.bind_some]
      rfl
    · rw [hleft 0 (by omega)]
      exact h.head
    · rw [hlength, Nat.add_sub_cancel, List.getElem?_concat_length]
    · rw [hlength, ← h.count]
    · omega
    · intro i b hb
      have hi := (List.getElem?_eq_some_iff.mp hb).1
      rcases Nat.lt_trichotomy i ys.length with hlt | rfl | hgt
      · have hb' : (ys ++ [t])[i]? = some b := by
          rwa [hleft i (by omega)] at hb
        obtain ⟨e, he, hnext', hprev'⟩ := h.node i b hb'
        have hbt : b ≠ t := by
          rintro rfl
          rw [List.getElem?_append_left hlt] at hb'
          exact (List.disjoint_of_nodup_append h.nodup) (List.mem_of_getElem? hb')
            List.mem_cons_self
        have hba : b ≠ a := fun he => ha (he ▸ List.mem_of_getElem? hb')
        refine ⟨e, (hother b hba hbt).trans he, ?_, ?_⟩
        · rw [hnext', hleft (i + 1) (by omega)]
        · rw [hprev', hleft (i - 1) (by omega)]
      · obtain rfl : t = b := by
          rw [hleft ys.length (by omega), hlast] at hb
          exact Option.some.inj hb
        refine ⟨_, hat, ?_, ?_⟩
        · rw [← hpos, List.getElem?_concat_length]
        · change n.prev = _
          rw [hprev, hleft (ys.length - 1) (by omega)]
      · obtain rfl : i = ys.length + 1 := by omega
        obtain rfl : a = b := by
          rw [← hpos, List.getElem?_concat_length] at hb
          exact Option.some.inj hb
        refine ⟨_, Function.update_self _ _ _, ?_, ?_⟩
        · exact (List.getElem?_eq_none (by omega)).symm
        · rw [if_neg (Nat.succ_ne_zero _), Nat.add_sub_cancel,
            hleft ys.length (by omega), hlast]
    · intro b hb e he
      have hba : b ≠ a := fun he => ha (he ▸ hb)
      rcases eq_or_ne b t with rfl | hbt
      · obtain rfl := Option.some.inj (hn.symm.trans he)
        exact ⟨_, hat, rfl⟩
      · exact ⟨e, (hother b hba hbt).trans he, rfl⟩

theorem SameBlocks.trans {s'' : Mmstream} (h : SameBlocks s s' es) (h' : SameBlocks s' s'' es')
    (hpre : es <+: es') : SameBlocks s s'' es := by
  intro a ha e he
  obtain ⟨e', he', heq⟩ := h a ha e he
  obtain ⟨e'', he'', heq'⟩ := h' a (hpre.subset ha) e' he'
  exact ⟨e'', he'', heq'.trans heq⟩

theorem mmextentGrow_spec (h : ExtentsShape s es) (hg : ∀ i, granted i = true)
    (hlen : es.length + k ≤ 2 ^ 49) :
    ∃ s' es', mmextentGrow granted k s = some (true, s') ∧ ExtentsShape s' es' ∧ es <+: es' ∧
      es'.length = es.length + k ∧ SameBlocks s s' es := by
  induction k generalizing s es with
  | zero => exact ⟨s, es, rfl, h, List.prefix_refl es, rfl, fun _ _ e he => ⟨e, he, rfl⟩⟩
  | succ k ih =>
      obtain ⟨a, store, htake⟩ := s.store.take_granted ⟨none, none, fun _ => none⟩
      obtain ⟨s₁, hgrow, h₁, hsame⟩ :=
        mmextentGrow_one h ((hg s.requests).symm ▸ htake) (by omega) k
      have hlength : (es ++ [a]).length = es.length + 1 := List.length_append
      obtain ⟨s', es', hgrow', h', hpre, hlen', hsame'⟩ := ih h₁ (by omega)
      refine ⟨s', es', hgrow.trans hgrow', h', (List.prefix_append es [a]).trans hpre, by omega,
        hsame.trans hsame' (List.prefix_append es [a])⟩

def Mmstream.extentFor (s : Mmstream) (size : ℕ) : ℕ :=
  max s.extent (1 + alignUp size 512 / 2 ^ 9 / 2 ^ 6)

theorem mmextentResize_spec (h : ExtentsShape s es) (hg : ∀ i, granted i = true)
    (hsize : size ≤ 2 ^ 64) :
    ∃ s' es', mmextentResize granted s size = some (true, s') ∧ ExtentsShape s' es' ∧
      es <+: es' ∧ es'.length = s.extentFor size ∧ SameBlocks s s' es := by
  have hcount := h.count
  have hsmall := h.small
  have hup : 1 + alignUp size 512 / 2 ^ 9 / 2 ^ 6 ≤ 2 ^ 49 := by
    unfold alignUp add64
    split_ifs <;> omega
  unfold mmextentResize Mmstream.extentFor
  by_cases hlt : s.extent < 1 + alignUp size 512 / 2 ^ 9 / 2 ^ 6
  · obtain ⟨s', es', hgrow, h', hpre, hlen, hsame⟩ := mmextentGrow_spec h hg
      (k := 1 + alignUp size 512 / 2 ^ 9 / 2 ^ 6 - s.extent) (by omega)
    refine ⟨s', es', ?_, h', hpre, ?_, hsame⟩
    · rw [if_pos hlt, hgrow]
    · rw [hlen, max_eq_right hlt.le]
      omega
  · refine ⟨s, es, if_neg hlt, h, List.prefix_refl es, ?_, fun _ _ e he => ⟨e, he, rfl⟩⟩
    rw [max_eq_left (not_lt.mp hlt), hcount]

theorem lt_extentFor (h : pos + 511 < 2 ^ 64) : pos / 2 ^ 15 < s.extentFor pos := by
  have hup : alignUp pos 512 = (pos + 511) / 512 * 512 := by
    unfold alignUp
    rw [add64_eq (by omega)]
    omega
  unfold Mmstream.extentFor
  rw [hup]
  omega

/-! ## Looking up an extent -/

theorem mmextentWalk_next (h : ExtentsShape s es) {i : ℕ} (hi : i + k ≤ es.length) :
    mmextentWalk s MmExtent.next k es[i]? = some es[i + k]? := by
  induction k generalizing i with
  | zero => rfl
  | succ k ih =>
      have ha := List.getElem?_eq_getElem (show i < es.length by omega)
      obtain ⟨e, he, hnext, -⟩ := h.node i _ ha
      unfold mmextentWalk
      simp only [ha, he, hnext, Option.bind_eq_bind, Option.bind_some]
      rw [ih (by omega), Nat.add_right_comm, Nat.add_assoc]

def Straight (extent index : ℕ) : Prop := ¬(2 ≤ extent - index ∧ extent - index < extent / 2)

instance (extent index : ℕ) : Decidable (Straight extent index) :=
  inferInstanceAs (Decidable (¬_))

theorem mmextentAt_spec {index : ℕ} (h : ExtentsShape s es) (hlt : index < es.length)
    (hs : Straight s.extent index) : mmextentAt s index = some es[index]? := by
  have hcount := h.count
  have hsmall := h.small
  have hsub : sub64 s.extent index = s.extent - index := sub64_eq (by omega)
  have hsub1 : sub64 s.extent 1 = s.extent - 1 := sub64_eq (by omega)
  unfold mmextentAt
  rw [hsub, hsub1]
  split_ifs with hzero hlast hback
  · rw [h.head, hzero]
  · rw [h.tail, hlast, hcount]
  · exact absurd ⟨by omega, hback⟩ hs
  · rw [h.head, mmextentWalk_next h (by omega), Nat.zero_add]

theorem mmextentAt_end (h : ExtentsShape s es) : ∃ p, mmextentAt s es.length = some p := by
  have hcount := h.count
  have hsub : sub64 s.extent es.length = 0 := by
    rw [hcount, sub64_eq le_rfl, Nat.sub_self]
  unfold mmextentAt
  rw [hsub]
  split_ifs
  · exact ⟨_, rfl⟩
  · exact ⟨_, rfl⟩
  · exact ⟨_, rfl⟩
  · rw [h.head, mmextentWalk_next h (by omega)]
    exact ⟨_, rfl⟩

/-- The location of a byte. -/
structure MmLocation.At (l : MmLocation) (es : List ℕ) (pos : ℕ) : Prop where
  extent : l.extent = es[pos / 2 ^ 15]?
  extOff : l.extOff = pos / 2 ^ 9 % 2 ^ 6
  blkOff : l.blkOff = pos % 2 ^ 9
  blkAvail : l.blkAvail = 2 ^ 9 - pos % 2 ^ 9

theorem alignUp_sub (h : offset < 2 ^ 64) :
    sub64 (alignUp offset 512) offset = (512 - offset % 512) % 512 := by
  unfold alignUp
  by_cases hwrap : offset + 511 < 2 ^ 64
  · rw [add64_eq hwrap, sub64_eq (by omega)]
    omega
  · have hup : add64 offset (512 - 1) - add64 offset (512 - 1) % 512 = 0 := by
      unfold add64
      rw [if_neg hwrap]
      omega
    rw [hup, sub64, if_neg (by omega)]
    omega

variable (es) in
theorem mmlocationCompute_eq (s : Mmstream) (h : offset < 2 ^ 64) :
    ∃ l : MmLocation, (∀ p, { l with extent := p }.At es offset ↔ p = es[offset / 2 ^ 15]?) ∧
      mmlocationCompute s offset =
        (mmextentAt s (offset / 2 ^ 15)).map fun p => { l with extent := p } := by
  have hnr : offset / 2 ^ 9 / 2 ^ 6 = offset / 2 ^ 15 := by
    rw [Nat.div_div_eq_div_mul, ← pow_add]
  have hmod : (512 - offset % 512) % 512 % 2 ^ 16 = (512 - offset % 512) % 512 := by
    omega
  refine ⟨⟨none, offset / 2 ^ 15, offset / 2 ^ 9 - alignDown (offset / 2 ^ 9) 64,
    offset - alignDown offset 512,
    if (512 - offset % 512) % 512 = 0 then 512 else (512 - offset % 512) % 512⟩,
    fun p => ⟨fun hl => hl.extent, fun hp => ⟨hp, ?_, ?_, ?_⟩⟩, ?_⟩
  · change offset / 2 ^ 9 - offset / 2 ^ 9 / 64 * 64 = _
    omega
  · change offset - offset / 512 * 512 = _
    omega
  · change (if (512 - offset % 512) % 512 = 0 then 512 else (512 - offset % 512) % 512) = _
    split_ifs <;> omega
  · unfold mmlocationCompute
    simp only [alignUp_sub h, hmod, hnr]
    cases mmextentAt s (offset / 2 ^ 15) with
    | none => rfl
    | some p => rfl

theorem mmlocationNext_spec {q : ℕ} (h : ExtentsShape s es) (hl : l.At es pos)
    (hlt : pos / 2 ^ 15 < es.length) (hq : q = (pos / 512 + 1) * 512) :
    ∃ l', mmlocationNext s l = some (decide (es[q / 2 ^ 15]? = none), l') ∧ l'.At es q := by
  obtain ⟨hext, hoff, -, -⟩ := hl
  have ha := List.getElem?_eq_getElem hlt
  obtain ⟨e, he, hnext, -⟩ := h.node _ _ ha
  unfold mmlocationNext
  by_cases hwrap : l.extOff + 1 = 64
  · have hdiv : q / 2 ^ 15 = pos / 2 ^ 15 + 1 := by omega
    rw [if_pos hwrap, hext, ha]
    simp only [he, hnext, ← hdiv, Option.bind_eq_bind, Option.bind_some, Option.pure_def]
    refine ⟨_, rfl, rfl, ?_, ?_, ?_⟩
    · change 0 = _
      omega
    · change 0 = _
      omega
    · change 512 = _
      omega
  · have hdiv : q / 2 ^ 15 = pos / 2 ^ 15 := by omega
    rw [if_neg hwrap, hext, ← hdiv]
    refine ⟨_, rfl, rfl, ?_, ?_, ?_⟩
    · change l.extOff + 1 = _
      omega
    · change 0 = _
      omega
    · change 512 = _
      omega

/-! ## Reading -/

theorem StreamHolds.block (h : StreamHolds s es v) (hk : 0 < k) (hfit : k ≤ 2 ^ 9 - pos % 2 ^ 9)
    (hcov : ∀ i < k, (v (pos + i)).isSome) :
    ∃ a e block, es[pos / 2 ^ 15]? = some a ∧ s.store.nodes a = some e ∧
      e.blocks (pos / 2 ^ 9 % 2 ^ 6) = some block ∧
      ∀ i < k, v (pos + i) = some (block (pos % 2 ^ 9 + i)) := by
  obtain ⟨b, hb⟩ := Option.isSome_iff_exists.mp (hcov 0 hk)
  obtain ⟨a, e, block, ha, he, hblock, -⟩ := h (pos + 0) b hb
  rw [Nat.add_zero] at ha hblock
  refine ⟨a, e, block, ha, he, hblock, fun i hi => ?_⟩
  obtain ⟨c, hc⟩ := Option.isSome_iff_exists.mp (hcov i hi)
  obtain ⟨a', e', block', ha', he', hblock', hbyte⟩ := h (pos + i) c hc
  have h1 : (pos + i) / 2 ^ 15 = pos / 2 ^ 15 := by omega
  have h2 : (pos + i) / 2 ^ 9 % 2 ^ 6 = pos / 2 ^ 9 % 2 ^ 6 := by omega
  have h3 : (pos + i) % 2 ^ 9 = pos % 2 ^ 9 + i := by omega
  rw [h1, ha] at ha'
  obtain rfl := Option.some.inj ha'
  obtain rfl := Option.some.inj (he.symm.trans he')
  rw [h2, hblock] at hblock'
  obtain rfl := Option.some.inj hblock'
  rw [hc, ← hbyte, h3]

theorem mmstreamReadLoop_spec (h : ExtentsShape s es) (hv : StreamHolds s es v)
    (hfuel : size - n < fuel) (hn : n ≤ size) (hl : n < size → l.At es (offset + n))
    (hcov : ∀ i < size, (v (offset + i)).isSome) :
    ∃ bytes, mmstreamReadLoop s size fuel l n = some bytes ∧ bytes.length = size - n ∧
      ∀ i < size - n, bytes[i]? = v (offset + n + i) := by
  induction fuel generalizing n l with
  | zero => omega
  | succ fuel ih =>
      unfold mmstreamReadLoop
      by_cases hlt : n < size
      · have hat := hl hlt
        obtain ⟨hext, hoff, hblk, havail⟩ := id hat
        let k := min (size - n) l.blkAvail
        have hk : k = min (size - n) (2 ^ 9 - (offset + n) % 2 ^ 9) := by rw [← havail]
        have hcovk : ∀ i < k, (v (offset + n + i)).isSome := by
          intro i hi
          rw [Nat.add_assoc]
          exact hcov _ (by omega)
        obtain ⟨a, e, block, ha, he, hblock, hbytes⟩ := hv.block (k := k) (by omega) (by omega) hcovk
        have hread : block.read l.blkOff k = (List.range k).map fun i =>
            block ((offset + n) % 2 ^ 9 + i) := by rw [hblk]; rfl
        have hin : (offset + n) / 2 ^ 15 < es.length := (List.getElem?_eq_some_iff.mp ha).1
        obtain ⟨l', hnext, hl'⟩ := mmlocationNext_spec h hat hin rfl
        let stop := decide (es[((offset + n) / 512 + 1) * 512 / 2 ^ 15]? = none)
        -- the rest of the bytes, if any
        have hrest : ∃ rest, (if stop then some [] else mmstreamReadLoop s size fuel l' (n + k)) =
            some rest ∧ rest.length = size - (n + k) ∧
              ∀ i < size - (n + k), rest[i]? = v (offset + (n + k) + i) := by
          rcases Nat.lt_or_ge (n + k) size with hmore | hend
          · have hpos : ((offset + n) / 512 + 1) * 512 = offset + (n + k) := by omega
            obtain ⟨c, hc⟩ := Option.isSome_iff_exists.mp (hcov (n + k) hmore)
            obtain ⟨a', -, -, ha', -⟩ := hv _ c hc
            have hstop : stop = false := by
              apply decide_eq_false
              rw [hpos, ha']
              exact Option.some_ne_none a'
            rw [hstop, if_neg Bool.false_ne_true]
            apply ih (by omega) (by omega)
            exact fun _ => hpos ▸ hl'
          · refine ⟨[], ?_, (Nat.sub_eq_zero_of_le hend).symm, fun i hi => by omega⟩
            cases fuel with
            | zero => omega
            | succ fuel =>
                unfold mmstreamReadLoop
                rw [if_neg (not_lt.mpr hend), ite_self]
        obtain ⟨rest, hrest, hlen, hget⟩ := hrest
        refine ⟨block.read l.blkOff k ++ rest, ?_, ?_, fun i hi => ?_⟩
        · have hk0 : ¬ k = 0 := by omega
          have hkin : l.blkOff + k ≤ 512 := by omega
          rw [if_pos hlt, hext, ha, hoff]
          simp only [he, hblock, Option.bind_eq_bind, Option.bind_some, Option.pure_def]
          change (if k = 0 then some [] else if l.blkOff + k ≤ 512 then _ else none) = _
          rw [if_neg hk0, if_pos hkin, hnext, Option.bind_some]
          change Option.map (block.read l.blkOff k ++ ·)
            (if stop then some [] else mmstreamReadLoop s size fuel l' (n + k)) = _
          rw [hrest, Option.map_some]
        · rw [List.length_append, Bytes.length_read, hlen]
          omega
        · rcases Nat.lt_or_ge i k with hik | hik
          · rw [List.getElem?_append_left (by rwa [Bytes.length_read]), hread,
              List.getElem?_map, List.getElem?_range hik, hbytes i hik]
            rfl
          · rw [List.getElem?_append_right (by rwa [Bytes.length_read]), Bytes.length_read,
              hget _ (by omega)]
            congr 1
            omega
      · refine ⟨[], if_neg hlt, ?_, fun i hi => by omega⟩
        rw [List.length_nil]
        omega

/-! ## Writing -/

/-- `v` with `bytes` from `off` on. -/
def overwrite (v : ℕ → Option UInt8) (off : ℕ) (bytes : List UInt8) (p : ℕ) : Option UInt8 :=
  if off ≤ p ∧ p < off + bytes.length then bytes[p - off]? else v p

theorem mmstreamBlock_spec (hg : ∀ i, granted i = true) (s : Mmstream) (e : MmExtent) (j : ℕ) :
    ∃ block requests, mmstreamBlock granted s e j = (some block, { s with requests := requests }) ∧
      ∀ b, e.blocks j = some b → block = b := by
  unfold mmstreamBlock
  cases hb : e.blocks j with
  | some block => exact ⟨block, s.requests, rfl, fun b h => Option.some.inj h⟩
  | none =>
      refine ⟨fun _ => 0, s.requests + 1, ?_, fun b h => (nomatch h)⟩
      unfold mmblkAlloc
      rw [hg, if_pos rfl]

theorem ExtentsShape.put {a : ℕ} {e : MmExtent} (h : ExtentsShape s es)
    (he : s.store.nodes a = some e) (blocks : ℕ → Option Bytes) (requests : ℕ) :
    ExtentsShape { s with
      store := s.store.put a { e with blocks := blocks }, requests := requests } es := by
  refine ⟨h.sound.put he, h.nodup, h.head, h.tail, h.count, h.small, fun i b hb => ?_⟩
  obtain ⟨e', he', hnext, hprev⟩ := h.node i b hb
  rcases eq_or_ne b a with rfl | hne
  · obtain rfl := Option.some.inj (he.symm.trans he')
    exact ⟨_, Function.update_self _ _ _, hnext, hprev⟩
  · exact ⟨e', (Function.update_of_ne hne _ _).trans he', hnext, hprev⟩

/-- Bytes written to a block are where the stream looks for them. -/
theorem StreamHolds.put {a : ℕ} {e : MmExtent} {block : Bytes} {bytes : List UInt8}
    {w : ℕ → Option UInt8} {requests : ℕ} (hshape : ExtentsShape s es) (h : StreamHolds s es v)
    (ha : es[pos / 2 ^ 15]? = some a) (he : s.store.nodes a = some e)
    (hblock : ∀ b, e.blocks (pos / 2 ^ 9 % 2 ^ 6) = some b → block = b)
    (hfit : bytes.length ≤ 2 ^ 9 - pos % 2 ^ 9)
    (hin : ∀ i < bytes.length, w (pos + i) = bytes[i]?)
    (hout : ∀ p, p < pos ∨ pos + bytes.length ≤ p → w p = v p) :
    StreamHolds { s with
      store := s.store.put a { e with
        blocks := Function.update e.blocks (pos / 2 ^ 9 % 2 ^ 6)
          (some (block.write (pos % 2 ^ 9) bytes)) }
      requests := requests } es w := by
  intro p b hb
  let written := block.write (pos % 2 ^ 9) bytes
  let e₁ : MmExtent := { e with
    blocks := Function.update e.blocks (pos / 2 ^ 9 % 2 ^ 6) (some written) }
  by_cases hp : p < pos ∨ pos + bytes.length ≤ p
  · rw [hout p hp] at hb
    obtain ⟨a', e', block', ha', he', hblock', hbyte⟩ := h p b hb
    by_cases haa : a' = a
    · subst haa
      obtain rfl := Option.some.inj (he.symm.trans he')
      -- the same extent: the byte lies in another block, or elsewhere in the same one
      have hidx : p / 2 ^ 15 = pos / 2 ^ 15 :=
        (List.getElem?_inj (List.getElem?_eq_some_iff.mp ha').1 hshape.nodup).mp
          (ha'.trans ha.symm)
      by_cases hj : p / 2 ^ 9 % 2 ^ 6 = pos / 2 ^ 9 % 2 ^ 6
      · rw [hj] at hblock'
        obtain rfl := hblock block' hblock'
        refine ⟨a', e₁, written, ha', Function.update_self _ _ _, ?_, ?_⟩
        · rw [hj]
          exact Function.update_self _ _ _
        · rw [← hbyte]
          have hcases : p % 2 ^ 9 < pos % 2 ^ 9 ∨ pos % 2 ^ 9 + bytes.length ≤ p % 2 ^ 9 := by
            omega
          rcases hcases with hlt | hge
          · exact Bytes.write_of_lt hlt
          · exact Bytes.write_of_ge hge
      · exact ⟨a', e₁, block', ha', Function.update_self _ _ _,
          (Function.update_of_ne hj _ _).trans hblock', hbyte⟩
    · exact ⟨a', e', block', ha', (Function.update_of_ne haa _ _).trans he', hblock', hbyte⟩
  · obtain ⟨i, rfl⟩ := Nat.exists_eq_add_of_le (show pos ≤ p by omega)
    have hi : i < bytes.length := by omega
    have h1 : (pos + i) / 2 ^ 15 = pos / 2 ^ 15 := by omega
    have h2 : (pos + i) / 2 ^ 9 % 2 ^ 6 = pos / 2 ^ 9 % 2 ^ 6 := by omega
    have h3 : (pos + i) % 2 ^ 9 = pos % 2 ^ 9 + i := by omega
    refine ⟨a, e₁, written, ?_, Function.update_self _ _ _, ?_, ?_⟩
    · rw [h1, ha]
    · rw [h2]
      exact Function.update_self _ _ _
    · rw [hin i hi] at hb
      change block.write (pos % 2 ^ 9) bytes _ = b
      rw [h3, Bytes.write, if_pos (Nat.le_add_right _ _), Nat.add_sub_cancel_left,
        List.getD_eq_getElem?_getD, hb, Option.getD_some]

theorem overwrite_take_succ (hlen : n + k ≤ buffer.length) {i : ℕ} (hi : i < k) :
    overwrite v offset (buffer.take (n + k)) (offset + n + i) = ((buffer.drop n).take k)[i]? := by
  have hle : (buffer.take (n + k)).length = n + k := by
    rw [List.length_take, min_eq_left hlen]
  have hsub : offset + n + i - offset = n + i := by omega
  rw [overwrite, if_pos (by omega), hsub, List.getElem?_take_of_lt (by omega),
    List.getElem?_take_of_lt hi, List.getElem?_drop]

theorem overwrite_take_of_notMem (hlen : n + k ≤ buffer.length) {p : ℕ}
    (hp : p < offset + n ∨ offset + n + k ≤ p) :
    overwrite v offset (buffer.take (n + k)) p = overwrite v offset (buffer.take n) p := by
  have hle : (buffer.take (n + k)).length = n + k := by
    rw [List.length_take, min_eq_left hlen]
  have hle' : (buffer.take n).length = n := by
    rw [List.length_take, min_eq_left (by omega)]
  unfold overwrite
  rw [hle, hle']
  by_cases hin : offset ≤ p ∧ p < offset + n
  · rw [if_pos hin, if_pos (by omega), List.getElem?_take_of_lt (by omega),
      List.getElem?_take_of_lt (by omega)]
  · rw [if_neg hin, if_neg (by omega)]

/-- One round of the loop of `mmstream_write`: the bytes that fit in the block are stored,
and there is an extent for the next one. -/
theorem mmstreamWriteLoop_round (h : ExtentsShape s es) (hg : ∀ i, granted i = true)
    (hv : StreamHolds s es (overwrite v offset (buffer.take n))) (hat : l.At es (offset + n))
    (hin : (offset + n) / 2 ^ 15 < es.length) (hlen : size ≤ buffer.length) (hlt : n < size)
    (hpos : offset + n < 2 ^ 64) (hk : k = min (size - n) (2 ^ 9 - (offset + n) % 2 ^ 9)) :
    ∃ s' es' stop l', (∀ fuel, mmstreamWriteLoop granted buffer offset size (fuel + 1) s l n =
        if stop then some (n + k, s')
        else mmstreamWriteLoop granted buffer offset size fuel s' l' (n + k)) ∧
      ExtentsShape s' es' ∧ StreamHolds s' es' (overwrite v offset (buffer.take (n + k))) ∧
      (n + k < size → (stop = true ↔ offset + (n + k) = 2 ^ 64) ∧
        l'.At es' (offset + (n + k)) ∧
        (offset + (n + k) < 2 ^ 64 → (offset + (n + k)) / 2 ^ 15 < es'.length)) := by
  obtain ⟨hext, hoff, hblk, havail⟩ := id hat
  have ha := List.getElem?_eq_getElem hin
  obtain ⟨e, he, -, -⟩ := h.node _ _ ha
  obtain ⟨block, requests, hblock, hsame⟩ := mmstreamBlock_spec hg s e l.extOff
  have hchunk : ((buffer.drop n).take k).length = k := by
    rw [List.length_take, List.length_drop]
    omega
  let written := block.write (l.blkOff) ((buffer.drop n).take k)
  let blocks := Function.update e.blocks l.extOff (some written)
  let s₁ : Mmstream := { s with
    store := s.store.put es[(offset + n) / 2 ^ 15] { e with blocks := blocks }
    requests := requests }
  have h₁ : ExtentsShape s₁ es := h.put he blocks requests
  have hv₁ : StreamHolds s₁ es (overwrite v offset (buffer.take (n + k))) := by
    change StreamHolds { s with
      store := s.store.put es[(offset + n) / 2 ^ 15] { e with
        blocks := Function.update e.blocks l.extOff
          (some (block.write l.blkOff ((buffer.drop n).take k))) }
      requests := requests } es _
    rw [hoff, hblk]
    refine hv.put h ha he (hoff ▸ hsame) (by omega) (fun i hi => ?_) (fun p hp => ?_)
    · exact overwrite_take_succ (by omega) (by omega)
    · exact overwrite_take_of_notMem (by omega) (by omega)
  have hend : offset + (n + k) ≤ 2 ^ 64 := by omega
  have hadd : add64 offset (n + k) ≤ 2 ^ 64 := by
    unfold add64
    split_ifs <;> omega
  obtain ⟨s₂, es₂, hresize, h₂, ⟨ys, rfl⟩, hlen₂, hsame₂⟩ := mmextentResize_spec h₁ hg hadd
  have hin₂ : (offset + n) / 2 ^ 15 < (es ++ ys).length := by
    rw [List.length_append]
    omega
  have hat₂ : l.At (es ++ ys) (offset + n) :=
    ⟨by rw [hext, List.getElem?_append_left hin], hoff, hblk, havail⟩
  obtain ⟨l', hnext, hl'⟩ := mmlocationNext_spec h₂ hat₂ hin₂ rfl
  refine ⟨s₂, es ++ ys, decide ((es ++ ys)[((offset + n) / 512 + 1) * 512 / 2 ^ 15]? = none), l',
    fun fuel => ?_, h₂, hv₁.extend hsame₂ (List.prefix_append es ys), fun hmore => ?_⟩
  · have hk0 : ¬ k = 0 := by omega
    have hmin : min (size - n) l.blkAvail = k := by rw [havail, hk]
    have hcopy : block.memcpy 0 512 l.blkOff ((buffer.drop n).take k) = some written := by
      unfold Bytes.memcpy
      rw [hchunk, if_neg hk0, if_pos (by omega)]
    conv => lhs; unfold mmstreamWriteLoop
    rw [if_pos hlt, hmin, if_neg hk0, hext, ha]
    simp only [he, hblock, hcopy, Option.bind_eq_bind, Option.bind_some, Option.pure_def]
    change (mmextentResize granted s₁ (add64 offset (n + k))).bind _ = _
    rw [hresize]
    simp only [hnext, if_true, Option.bind_some]
  · have hround : ((offset + n) / 512 + 1) * 512 = offset + (n + k) := by omega
    rw [hround] at hl' ⊢
    have hroom : offset + (n + k) < 2 ^ 64 → (offset + (n + k)) / 2 ^ 15 < (es ++ ys).length := by
      intro hlt64
      rw [hlen₂, add64_eq hlt64]
      exact lt_extentFor (by omega)
    refine ⟨⟨fun hstop => ?_, fun heq => ?_⟩, hl', hroom⟩
    · rcases Nat.lt_or_ge (offset + (n + k)) (2 ^ 64) with hlt64 | hge
      · have hnone := List.getElem?_eq_none_iff.mp (of_decide_eq_true hstop)
        exact absurd (hroom hlt64) (not_lt.mpr hnone)
      · omega
    · have hsmall := h₂.small
      apply decide_eq_true
      rw [heq]
      exact List.getElem?_eq_none (by omega)

theorem mmstreamWriteLoop_spec (h : ExtentsShape s es) (hg : ∀ i, granted i = true)
    (hv : StreamHolds s es (overwrite v offset (buffer.take n))) (hat : l.At es (offset + n))
    (hin : (offset + n) / 2 ^ 15 < es.length) (hlen : size ≤ buffer.length) (hlt : n < size)
    (hpos : offset + n < 2 ^ 64) (hfuel : size - n < fuel) :
    ∃ s' es', mmstreamWriteLoop granted buffer offset size fuel s l n =
        some (min size (2 ^ 64 - offset), s') ∧ ExtentsShape s' es' ∧
      StreamHolds s' es' (overwrite v offset (buffer.take (min size (2 ^ 64 - offset)))) := by
  induction fuel generalizing s es l n with
  | zero => omega
  | succ fuel ih =>
      obtain ⟨s₁, es₁, stop, l₁, hround, h₁, hv₁, hnext⟩ :=
        mmstreamWriteLoop_round h hg hv hat hin hlen hlt hpos rfl
      generalize hk : min (size - n) (2 ^ 9 - (offset + n) % 2 ^ 9) = k at *
      rw [hround]
      rcases Nat.lt_or_ge (n + k) size with hmore | hend
      · obtain ⟨hstop, hat₁, hin₁⟩ := hnext hmore
        rcases Nat.lt_or_ge (offset + (n + k)) (2 ^ 64) with hlt64 | hge
        · have hgo : stop = false := by
            rw [← Bool.not_eq_true, hstop]
            omega
          rw [hgo, if_neg Bool.false_ne_true]
          exact ih h₁ hv₁ hat₁ (hin₁ hlt64) hmore hlt64 (by omega)
        · have heq : offset + (n + k) = 2 ^ 64 := by omega
          have hmin : min size (2 ^ 64 - offset) = n + k := by omega
          rw [hstop.mpr heq, if_pos rfl, hmin]
          exact ⟨s₁, es₁, rfl, h₁, hv₁⟩
      · have hmin : min size (2 ^ 64 - offset) = n + k := by omega
        have hdone : mmstreamWriteLoop granted buffer offset size fuel s₁ l₁ (n + k) =
            some (n + k, s₁) := by
          cases fuel with
          | zero => omega
          | succ fuel =>
              unfold mmstreamWriteLoop
              exact if_neg (not_lt.mpr hend)
        rw [hdone, ite_self, hmin]
        exact ⟨s₁, es₁, rfl, h₁, hv₁⟩

/-! ## Runs -/

/-- The number of bytes that a write stores: the size without its top bit, up to the end of
what an offset can reach. -/
def MmstreamOp.count (op : MmstreamOp) : ℕ := min (op.buffer.length % 2 ^ 31) (2 ^ 64 - op.offset)

/-- The byte last written to each position. -/
def written (v : ℕ → Option UInt8) (ops : List MmstreamOp) : ℕ → Option UInt8 :=
  ops.foldl (fun v op => overwrite v op.offset (op.buffer.take op.count)) v

/-- Nothing is to be written, or there are extents up to the offset and the first one is not
looked for from the last one back. -/
def MmstreamOp.Fits (s : Mmstream) (op : MmstreamOp) : Prop :=
  op.buffer.length % 2 ^ 31 = 0 ∨ op.offset / 2 ^ 15 < s.extentFor op.offset ∧
    Straight (s.extentFor op.offset) (op.offset / 2 ^ 15)

theorem mmstreamStep_spec {op : MmstreamOp} (h : ExtentsShape s es) (hv : StreamHolds s es v)
    (hg : ∀ i, granted i = true) (hoff : op.offset < 2 ^ 64) (hfit : op.Fits s) :
    ∃ s' es', mmstreamStep granted s op = some ((op.count : ℤ), s') ∧ ExtentsShape s' es' ∧
      StreamHolds s' es' (overwrite v op.offset (op.buffer.take op.count)) := by
  unfold mmstreamStep mmstreamWrite
  by_cases hzero : op.buffer.length % 2 ^ 31 = 0
  · have hcount : op.count = 0 := by
      unfold MmstreamOp.count
      omega
    refine ⟨s, es, ?_, h, ?_⟩
    · rw [if_pos hzero, hcount]
      rfl
    · rw [hcount, List.take_zero]
      intro p b hb
      refine hv p b ?_
      rwa [overwrite, if_neg (by rw [List.length_nil]; omega)] at hb
  · obtain ⟨hlt, hs⟩ := hfit.resolve_left hzero
    obtain ⟨s₁, es₁, hresize, h₁, hpre, hlen, hsame⟩ :=
      mmextentResize_spec h hg (show op.offset ≤ 2 ^ 64 from hoff.le)
    obtain ⟨l, hat, hcompute⟩ := mmlocationCompute_eq es₁ s₁ hoff
    have hcount := h₁.count
    have hlook := mmextentAt_spec h₁ (hlen ▸ hlt) (by rwa [hcount, hlen])
    let l₁ : MmLocation := { l with extent := es₁[op.offset / 2 ^ 15]? }
    have hat₁ : l₁.At es₁ (op.offset + 0) := (hat _).mpr rfl
    have hv₁ : StreamHolds s₁ es₁ (overwrite v op.offset (op.buffer.take 0)) := by
      intro p b hb
      refine hv.extend hsame hpre p b ?_
      rwa [List.take_zero, overwrite, if_neg (by rw [List.length_nil]; omega)] at hb
    obtain ⟨s', es', hloop, h', hv'⟩ := mmstreamWriteLoop_spec h₁ hg hv₁ hat₁ (hlen ▸ hlt)
      (Nat.mod_le _ _) (Nat.pos_of_ne_zero hzero) hoff
      (show _ < op.buffer.length % 2 ^ 31 + 1 by omega)
    refine ⟨s', es', ?_, h', hv'⟩
    rw [if_neg hzero]
    simp only [hresize, hcompute, hlook, if_true, Option.map_some, Option.bind_eq_bind,
      Option.bind_some, Option.pure_def]
    change (mmstreamWriteLoop granted op.buffer op.offset (op.buffer.length % 2 ^ 31)
      (op.buffer.length % 2 ^ 31 + 1) s₁ l₁ 0).bind _ = _
    rw [hloop, Option.bind_some]
    rfl

theorem mmstreamRun_spec {ops : List MmstreamOp} (h : ExtentsShape s es)
    (hv : StreamHolds s es v) (hg : ∀ i, granted i = true)
    (hoff : ∀ op ∈ ops, op.offset < 2 ^ 64)
    (hops : Meets (mmstreamStep granted) (fun s op => op.Fits s) s ops) :
    ∃ s' es', runAll (mmstreamStep granted) s ops =
        some (ops.map fun op => (op.count : ℤ), s') ∧
      ExtentsShape s' es' ∧ StreamHolds s' es' (written v ops) := by
  induction ops generalizing s es v with
  | nil => exact ⟨s, es, rfl, h, hv⟩
  | cons op ops ih =>
      obtain ⟨s₁, es₁, hstep, h₁, hv₁⟩ :=
        mmstreamStep_spec h hv hg (hoff op List.mem_cons_self) hops.1
      obtain ⟨s', es', hrun, h', hv'⟩ := ih h₁ hv₁
        (fun op' hmem => hoff op' (List.mem_cons_of_mem op hmem)) (hops.2 _ _ hstep)
      refine ⟨s', es', ?_, h', hv'⟩
      rw [runAll_cons, hstep, Option.bind_some, hrun]
      rfl

/-- The lookup of a read: not back from the last extent, and not behind the end. -/
def Mmstream.Reads (s : Mmstream) (offset : ℕ) : Prop :=
  offset / 2 ^ 15 ≤ s.extent ∧ Straight s.extent (offset / 2 ^ 15)

theorem mmstreamRead_spec (h : ExtentsShape s es) (hv : StreamHolds s es v)
    (hoff : offset < 2 ^ 64) (hsize : size < 2 ^ 31) (hread : s.Reads offset)
    (hcov : ∀ i < size, (v (offset + i)).isSome) :
    ∃ bytes, mmstreamRead s offset size = some (size, bytes) ∧ bytes.length = size ∧
      ∀ i < size, bytes[i]? = v (offset + i) := by
  have hmod : size % 2 ^ 31 = size := Nat.mod_eq_of_lt hsize
  obtain ⟨hle, hs⟩ := hread
  have hcount := h.count
  obtain ⟨l, hat, hcompute⟩ := mmlocationCompute_eq es s hoff
  unfold mmstreamRead
  rcases Nat.eq_zero_or_pos size with rfl | hpos
  · -- nothing to read, but the lookup must end
    have hlook : ∃ p, mmextentAt s (offset / 2 ^ 15) = some p := by
      rcases Nat.lt_or_ge (offset / 2 ^ 15) es.length with hlt | hge
      · exact ⟨_, mmextentAt_spec h hlt hs⟩
      · have heq : offset / 2 ^ 15 = es.length := by omega
        rw [heq]
        exact mmextentAt_end h
    obtain ⟨p, hlook⟩ := hlook
    refine ⟨[], ?_, rfl, fun i hi => absurd hi (Nat.not_lt_zero i)⟩
    simp only [hcompute, hlook, Nat.zero_mod, mmstreamReadLoop, lt_irrefl, if_false,
      Option.map_some, Option.bind_eq_bind, Option.bind_some, Option.pure_def, List.length_nil]
  · obtain ⟨b, hb⟩ := Option.isSome_iff_exists.mp (hcov 0 hpos)
    obtain ⟨a, -, -, ha, -⟩ := hv _ b hb
    rw [Nat.add_zero] at ha
    have hlt := (List.getElem?_eq_some_iff.mp ha).1
    have hlook := mmextentAt_spec h hlt hs
    let l₁ : MmLocation := { l with extent := es[offset / 2 ^ 15]? }
    have hat₁ : l₁.At es (offset + 0) := (hat _).mpr rfl
    obtain ⟨bytes, hloop, hlen, hget⟩ := mmstreamReadLoop_spec h hv
      (show size - 0 < size + 1 by omega) (Nat.zero_le size) (fun _ => hat₁) hcov
    refine ⟨bytes, ?_, hlen, hget⟩
    have hlen' : bytes.length = size := hlen
    simp only [hcompute, hlook, hmod, Option.map_some, Option.bind_eq_bind, Option.bind_some,
      Option.pure_def]
    change (mmstreamReadLoop s size (size + 1) l₁ 0).bind _ = _
    rw [hloop, Option.bind_some, hlen']

/-- After writes that never look for an extent back from the last one, a read that does not
either gives the bytes last written, whatever its range as long as it was written. -/
theorem mmstream_reads_back (granted : ℕ → Bool) (hg : ∀ i, granted i = true)
    (ops : List MmstreamOp) (hoff : ∀ op ∈ ops, op.offset < 2 ^ 64)
    (hops : Meets (mmstreamStep granted) (fun s op => op.Fits s) mmstreamAlloc ops) :
    ∃ s', runAll (mmstreamStep granted) mmstreamAlloc ops =
        some (ops.map fun op => (op.count : ℤ), s') ∧
      ∀ offset size, offset < 2 ^ 64 → size < 2 ^ 31 → s'.Reads offset →
        (∀ i < size, (written (fun _ => none) ops (offset + i)).isSome) →
        ∃ bytes, mmstreamRead s' offset size = some (size, bytes) ∧ bytes.length = size ∧
          ∀ i < size, bytes[i]? = written (fun _ => none) ops (offset + i) := by
  obtain ⟨s', es', hrun, h', hv'⟩ := mmstreamRun_spec extentsShape_alloc
    (v := fun _ => none) (fun _ _ hb => absurd hb (Option.some_ne_none _).symm) hg hoff hops
  exact ⟨s', hrun, fun offset size hoff' hsize hread hcov =>
    mmstreamRead_spec h' hv' hoff' hsize hread hcov⟩

theorem mmstream_reads_back_two : ∃ s',
    runAll (mmstreamStep fun _ => true) mmstreamAlloc [⟨[1, 2], 510⟩, ⟨[3], 511⟩] =
        some ([⟨[1, 2], 510⟩, ⟨[3], 511⟩].map fun op : MmstreamOp => (op.count : ℤ), s') ∧
      ∀ offset size, offset < 2 ^ 64 → size < 2 ^ 31 → s'.Reads offset →
        (∀ i < size, (written (fun _ => none) [⟨[1, 2], 510⟩, ⟨[3], 511⟩] (offset + i)).isSome) →
        ∃ bytes, mmstreamRead s' offset size = some (size, bytes) ∧ bytes.length = size ∧
          ∀ i < size, bytes[i]? =
            written (fun _ => none) [⟨[1, 2], 510⟩, ⟨[3], 511⟩] (offset + i) := by
  refine mmstream_reads_back (fun _ => true) (fun _ => rfl) [⟨[1, 2], 510⟩, ⟨[3], 511⟩] ?_
    ⟨Or.inr (by decide), ?_⟩
  · simp
  rintro r s ⟨⟩
  exact ⟨Or.inr (by decide), fun _ _ _ => trivial⟩

/-- With six extents, the fifth one is looked for from the last one back, and the fourth one
is found: its byte was written, but is not read. -/
theorem mmstream_misses_byte : ∃ s',
    runAll (mmstreamStep fun _ => true) mmstreamAlloc [⟨[7], 4 * 2 ^ 15⟩, ⟨[8], 5 * 2 ^ 15⟩] =
        some ([1, 1], s') ∧
      written (fun _ => none) [⟨[7], 4 * 2 ^ 15⟩, ⟨[8], 5 * 2 ^ 15⟩] (4 * 2 ^ 15) = some 7 ∧
      mmstreamRead s' (4 * 2 ^ 15) 1 = some (0, []) := by
  refine ⟨_, rfl, rfl, ?_⟩
  rfl

end Carthage
