import Carthage.MmstreamBytes

/-!
# Streams after any calls

Whatever memory is granted, and whatever is written, truncated or cleared: as long as the calls
return, the extents of a stream stand in a list that its head, its tail and its count agree with.
-/

namespace Carthage

variable {granted : ℕ → Bool} {s s' : Mmstream} {es es' : List ℕ} {l l' : MmLocation}
  {p : Option ℕ} {offset size n n' i j k fuel : ℕ} {buffer : List UInt8} {ok : Bool}

theorem ExtentsShape.asked (h : ExtentsShape s es) (requests : ℕ) :
    ExtentsShape { s with requests := requests } es :=
  ⟨h.sound, h.nodup, h.head, h.tail, h.count, h.small, h.node⟩

/-! ## Writing -/

theorem mmextentGrow_shape (h : ExtentsShape s es) (hlen : es.length + k ≤ 2 ^ 49)
    (hrun : mmextentGrow granted k s = some (ok, s')) : ∃ es', ExtentsShape s' es' := by
  induction k generalizing s es with
  | zero =>
      obtain ⟨-, rfl⟩ := Prod.mk.inj (Option.some.inj hrun)
      exact ⟨es, h⟩
  | succ k ih =>
      cases htake : s.store.take (granted s.requests) ⟨none, none, fun _ => none⟩ with
      | none =>
          have halloc :
              mmextentAlloc granted s = (none, { s with requests := s.requests + 1 }) := by
            unfold mmextentAlloc
            rw [htake]
          unfold mmextentGrow at hrun
          rw [halloc] at hrun
          obtain ⟨-, rfl⟩ := Prod.mk.inj (Option.some.inj hrun)
          exact ⟨es, h.asked _⟩
      | some x =>
          obtain ⟨a, store⟩ := x
          obtain ⟨s₁, hgrow, h₁, -⟩ := mmextentGrow_one h htake (by omega) k
          have hlength : (es ++ [a]).length = es.length + 1 := List.length_append
          rw [hgrow] at hrun
          exact ih h₁ (by omega) hrun

theorem mmextentResize_shape (h : ExtentsShape s es) (hsize : size ≤ 2 ^ 64)
    (hrun : mmextentResize granted s size = some (ok, s')) : ∃ es', ExtentsShape s' es' := by
  have hcount := h.count
  have hsmall := h.small
  have hup : 1 + alignUp size 512 / 2 ^ 9 / 2 ^ 6 ≤ 2 ^ 49 := by
    unfold alignUp add64
    split_ifs <;> omega
  unfold mmextentResize at hrun
  dsimp only at hrun
  split_ifs at hrun
  · exact mmextentGrow_shape h (by omega) hrun
  · obtain ⟨-, rfl⟩ := Prod.mk.inj (Option.some.inj hrun)
    exact ⟨es, h⟩

theorem mmstreamWriteLoop_shape (h : ExtentsShape s es) (hoff : offset < 2 ^ 64)
    (hsize : size < 2 ^ 31)
    (hrun : mmstreamWriteLoop granted buffer offset size fuel s l n = some (n', s')) :
    ∃ es', ExtentsShape s' es' := by
  induction fuel generalizing s es l n with
  | zero => cases hrun
  | succ fuel ih =>
      unfold mmstreamWriteLoop at hrun
      dsimp only at hrun
      split_ifs at hrun with hlt hzero
      · obtain ⟨-, rfl⟩ := Prod.mk.inj (Option.some.inj hrun)
        exact ⟨es, h⟩
      · obtain ⟨a, -, hrun⟩ := Option.bind_eq_some_iff.mp hrun
        obtain ⟨e, he, hrun⟩ := Option.bind_eq_some_iff.mp hrun
        have hblock : ∃ b requests, mmstreamBlock granted s e l.extOff =
            (b, { s with requests := requests }) := by
          unfold mmstreamBlock
          cases e.blocks l.extOff with
          | some block => exact ⟨_, s.requests, rfl⟩
          | none => exact ⟨_, s.requests + 1, rfl⟩
        obtain ⟨b, requests, hblock⟩ := hblock
        rw [hblock] at hrun
        cases b with
        | none =>
            obtain ⟨-, rfl⟩ := Prod.mk.inj (Option.some.inj hrun)
            exact ⟨es, h.asked requests⟩
        | some block =>
            obtain ⟨block', -, hrun⟩ := Option.bind_eq_some_iff.mp hrun
            obtain ⟨⟨ok, s₂⟩, hresize, hrun⟩ := Option.bind_eq_some_iff.mp hrun
            have hadd : add64 offset (n + min (size - n) l.blkAvail) ≤ 2 ^ 64 := by
              unfold add64
              split_ifs <;> omega
            obtain ⟨es₂, h₂⟩ := mmextentResize_shape
              (h.put he (Function.update e.blocks l.extOff (some block')) requests) hadd hresize
            dsimp only at hrun
            split_ifs at hrun
            · obtain ⟨⟨stop, l₂⟩, -, hrun⟩ := Option.bind_eq_some_iff.mp hrun
              dsimp only at hrun
              split_ifs at hrun
              · obtain ⟨-, rfl⟩ := Prod.mk.inj (Option.some.inj hrun)
                exact ⟨es₂, h₂⟩
              · exact ih h₂ hrun
            · obtain ⟨-, rfl⟩ := Prod.mk.inj (Option.some.inj hrun)
              exact ⟨es₂, h₂⟩
      · obtain ⟨-, rfl⟩ := Prod.mk.inj (Option.some.inj hrun)
        exact ⟨es, h⟩

theorem mmstreamWrite_shape {r : ℤ} (h : ExtentsShape s es) (hoff : offset < 2 ^ 64)
    (hrun : mmstreamWrite granted s buffer offset size = some (r, s')) :
    ∃ es', ExtentsShape s' es' := by
  unfold mmstreamWrite at hrun
  dsimp only at hrun
  split_ifs at hrun
  · obtain ⟨-, rfl⟩ := Prod.mk.inj (Option.some.inj hrun)
    exact ⟨es, h⟩
  · obtain ⟨⟨ok, s₁⟩, hresize, hrun⟩ := Option.bind_eq_some_iff.mp hrun
    obtain ⟨es₁, h₁⟩ := mmextentResize_shape h hoff.le hresize
    dsimp only at hrun
    split_ifs at hrun
    · obtain ⟨l, -, hrun⟩ := Option.bind_eq_some_iff.mp hrun
      obtain ⟨⟨n, s₂⟩, hloop, hrun⟩ := Option.bind_eq_some_iff.mp hrun
      obtain ⟨-, rfl⟩ := Prod.mk.inj (Option.some.inj hrun)
      exact mmstreamWriteLoop_shape h₁ hoff (Nat.mod_lt _ (by norm_num)) hloop
    · obtain ⟨-, rfl⟩ := Prod.mk.inj (Option.some.inj hrun)
      exact ⟨es₁, h₁⟩

/-! ## Looking up an extent -/

theorem mmextentWalk_off (h : ExtentsShape s es) (hi : es.length < i + k) (hle : i ≤ es.length) :
    mmextentWalk s MmExtent.next k es[i]? = none := by
  induction k generalizing i with
  | zero => omega
  | succ k ih =>
      unfold mmextentWalk
      rcases Nat.lt_or_ge i es.length with hlt | hge
      · have ha := List.getElem?_eq_getElem hlt
        obtain ⟨e, he, hnext, -⟩ := h.node i _ ha
        simp only [ha, he, hnext, Option.bind_eq_bind, Option.bind_some]
        exact ih (by omega) hlt
      · rw [List.getElem?_eq_none hge]
        rfl

theorem mmextentWalk_prev (h : ExtentsShape s es) (hk : k ≤ i) (hi : i < es.length) :
    mmextentWalk s MmExtent.prev k es[i]? = some es[i - k]? := by
  induction k generalizing i with
  | zero => rfl
  | succ k ih =>
      have ha := List.getElem?_eq_getElem hi
      obtain ⟨e, he, -, hprev⟩ := h.node i _ ha
      rw [if_neg (by omega)] at hprev
      unfold mmextentWalk
      simp only [ha, he, hprev, Option.bind_eq_bind, Option.bind_some]
      rw [ih (by omega) (by omega), Nat.sub_sub, Nat.add_comm 1 k]

/-- Where a lookup ends: at the extent asked for, one before it when it walks back, at no extent
just behind the end, or nowhere. -/
inductive LookupEnds (N index : ℕ) (es : List ℕ) : Option (Option ℕ) → Prop
  | found : index < N → Straight N index → LookupEnds N index es (some es[index]?)
  | before : 1 ≤ index → index ≤ N → N - index ≠ 1 → N - index < N / 2 →
      LookupEnds N index es (some es[index - 1]?)
  | behind : index = N → N ≤ 1 → LookupEnds N index es (some none)
  | lost : N < index → LookupEnds N index es none

theorem mmextentAt_ends {index : ℕ} (h : ExtentsShape s es) (hidx : index < 2 ^ 49) :
    LookupEnds es.length index es (mmextentAt s index) := by
  have hcount := h.count
  have hsmall := h.small
  rcases Nat.lt_trichotomy index es.length with hlt | heq | hgt
  · by_cases hs : Straight es.length index
    · rw [mmextentAt_spec h hlt (hcount ▸ hs)]
      exact .found hlt hs
    · have hback := not_not.mp hs
      have hsub : sub64 s.extent index = s.extent - index := sub64_eq (by omega)
      have hsub1 : sub64 s.extent 1 = s.extent - 1 := sub64_eq (by omega)
      have hat : mmextentAt s index = some es[index - 1]? := by
        unfold mmextentAt
        rw [hsub, hsub1, if_neg (by omega), if_neg (by omega), if_pos (by omega), h.tail,
          mmextentWalk_prev h (by omega) (by omega)]
        congr 2
        omega
      rw [hat]
      exact .before (by omega) hlt.le (by omega) (by omega)
  · have hsub : sub64 s.extent index = 0 := by
      rw [sub64_eq (by omega)]
      omega
    rcases Nat.lt_or_ge 1 es.length with hmany | hfew
    · have hsub1 : sub64 s.extent 1 = s.extent - 1 := sub64_eq (by omega)
      have hat : mmextentAt s index = some es[index - 1]? := by
        unfold mmextentAt
        rw [hsub, hsub1, if_neg (by omega), if_neg (by omega), if_pos (by omega), h.tail, heq]
        rfl
      rw [hat]
      exact .before (by omega) heq.le (by omega) (by omega)
    · have hat : mmextentAt s index = some none := by
        have hend : es[es.length]? = none := List.getElem?_eq_none le_rfl
        unfold mmextentAt
        rw [hsub]
        split_ifs with hzero hlast
        · rw [h.head, ← hzero, heq, hend]
        · unfold sub64 at hlast
          split_ifs at hlast <;> omega
        · omega
        · rw [h.head, mmextentWalk_next h (by omega), Nat.zero_add, heq, hend]
      rw [hat]
      exact .behind heq hfew
  · have hsub : sub64 s.extent index = s.extent + 2 ^ 64 - index := if_neg (by omega)
    have hat : mmextentAt s index = none := by
      unfold mmextentAt
      rw [hsub]
      split_ifs with hzero hlast
      · omega
      · unfold sub64 at hlast
        split_ifs at hlast <;> omega
      · omega
      · rw [h.head]
        exact mmextentWalk_off h (by omega) (Nat.zero_le _)
    rw [hat]
    exact .lost hgt

theorem LookupEnds.exists_index {index : ℕ} (h : LookupEnds es.length index es (some p)) :
    ∃ j ≤ index, p = es[j]? := by
  cases h with
  | found => exact ⟨index, le_rfl, rfl⟩
  | before => exact ⟨index - 1, Nat.sub_le _ _, rfl⟩
  | behind hend => exact ⟨index, le_rfl, (List.getElem?_eq_none hend.ge).symm⟩

/-! ## Freeing extents -/

theorem mmextentFreeLoop_dead {a : ℕ} (ha : s.store.nodes a = none)
    (hrun : mmextentFreeLoop fuel s p = some s') : s'.store.nodes a = none := by
  induction fuel generalizing s p with
  | zero =>
      cases p with
      | none =>
          obtain rfl := Option.some.inj hrun
          exact ha
      | some b => cases hrun
  | succ fuel ih =>
      cases p with
      | none =>
          obtain rfl := Option.some.inj hrun
          exact ha
      | some b =>
          obtain ⟨e, he, hrun⟩ := Option.bind_eq_some_iff.mp hrun
          have hne : a ≠ b := by
            rintro rfl
            rw [ha] at he
            cases he
          apply ih _ hrun
          exact (NodeStore.give_of_ne hne s.store false).trans ha

theorem mmextentFreeLoop_first {a : ℕ} (hrun : mmextentFreeLoop fuel s (some a) = some s') :
    s'.store.nodes a = none := by
  cases fuel with
  | zero => cases hrun
  | succ fuel =>
      obtain ⟨e, -, hrun⟩ := Option.bind_eq_some_iff.mp hrun
      exact mmextentFreeLoop_dead (NodeStore.give_self s.store false a) hrun

theorem mmextentFreeLoop_spec (hsound : s.store.Sound) (hnodup : es.Nodup)
    (hlinks : ∀ j a, i ≤ j → es[j]? = some a → ∃ e, s.store.nodes a = some e ∧
      e.next = es[j + 1]?) (hlen : es.length ≤ i + fuel) :
    ∃ s', mmextentFreeLoop fuel s es[i]? = some s' ∧ s'.store.Sound := by
  induction fuel generalizing s i with
  | zero =>
      rw [List.getElem?_eq_none (show es.length ≤ i from hlen)]
      exact ⟨s, rfl, hsound⟩
  | succ fuel ih =>
      rcases Nat.lt_or_ge i es.length with hlt | hge
      · have ha := List.getElem?_eq_getElem hlt
        obtain ⟨e, he, hnext⟩ := hlinks i _ le_rfl ha
        obtain ⟨s', hrun, hsound'⟩ := ih
          (s := { s with store := s.store.give false es[i], extent := sub64 s.extent 1 })
          (hsound.give he false) (i := i + 1) (fun j b hj hb => by
            obtain ⟨e', he', hnext'⟩ := hlinks j b (by omega) hb
            have hne : b ≠ es[i] := by
              rintro rfl
              have := (List.getElem?_inj hlt hnodup).mp (ha.trans hb.symm)
              omega
            exact ⟨e', (NodeStore.give_of_ne hne s.store false).trans he', hnext'⟩) (by omega)
        refine ⟨s', ?_, hsound'⟩
        rw [ha]
        unfold mmextentFreeLoop
        rw [he, Option.bind_eq_bind, Option.bind_some, hnext]
        exact hrun
      · rw [List.getElem?_eq_none hge]
        exact ⟨s, rfl, hsound⟩

theorem mmstreamClear_shape (h : ExtentsShape s es) :
    ∃ s', mmstreamClear s = some s' ∧ ExtentsShape s' [] := by
  have hcount := h.count
  have hlen : es.length ≤ 0 + s.extent := by omega
  obtain ⟨s₁, hfree, hsound⟩ := mmextentFreeLoop_spec h.sound h.nodup
    (fun j a _ ha => (h.node j a ha).imp fun e he => ⟨he.1, he.2.1⟩) hlen
  refine ⟨{ s₁ with head := none, tail := none, extent := 0 }, ?_, hsound, List.nodup_nil, rfl,
    rfl, rfl, Nat.zero_le _, fun j a ha => (nomatch ha)⟩
  unfold mmstreamClear
  rw [h.head, hfree]
  rfl

/-! ## Truncating -/

theorem mmstreamZeroLoop_succ {a : ℕ} {e : MmExtent} (hl : l.extent = some a)
    (he : s.store.nodes a = some e) : mmstreamZeroLoop p (fuel + 1) s l =
      (mmstreamZeroBlock s e a l).bind fun s => (mmlocationNext s l).bind fun x =>
        if x.2.extent = p then mmstreamZeroLoop p fuel s x.2 else some (x.2, s) := by
  conv => lhs; unfold mmstreamZeroLoop
  rw [hl, Option.bind_eq_bind, Option.bind_some, he]
  rfl

theorem mmstreamZeroBlock_shape {a : ℕ} {e : MmExtent} (h : ExtentsShape s es)
    (he : s.store.nodes a = some e) (hrun : mmstreamZeroBlock s e a l = some s') :
    ExtentsShape s' es := by
  unfold mmstreamZeroBlock at hrun
  split at hrun
  · obtain rfl := Option.some.inj hrun
    exact h
  · obtain ⟨block', -, hrun⟩ := Option.bind_eq_some_iff.mp hrun
    obtain rfl := Option.some.inj hrun
    exact h.put he _ s.requests

theorem mmstreamZeroLoop_shape (h : ExtentsShape s es) (hj : j < es.length)
    (hl : l.extent = es[j]?) (hrun : mmstreamZeroLoop es[j]? fuel s l = some (l', s')) :
    l'.extent = es[j + 1]? ∧ ExtentsShape s' es := by
  induction fuel generalizing s l with
  | zero => cases hrun
  | succ fuel ih =>
      have ha := List.getElem?_eq_getElem hj
      obtain ⟨e, he, -⟩ := h.node j _ ha
      rw [mmstreamZeroLoop_succ (hl.trans ha) he] at hrun
      obtain ⟨s₁, hblock, hrun⟩ := Option.bind_eq_some_iff.mp hrun
      obtain ⟨⟨stop, l₁⟩, hnext, hrun⟩ := Option.bind_eq_some_iff.mp hrun
      have h₁ := mmstreamZeroBlock_shape h he hblock
      obtain ⟨e₁, he₁, hnext₁, -⟩ := h₁.node j _ ha
      have hto : l₁.extent = es[j]? ∨ l₁.extent = es[j + 1]? := by
        unfold mmlocationNext at hnext
        rw [hl, ha] at hnext
        simp only [he₁, Option.bind_eq_bind, Option.bind_some, Option.pure_def] at hnext
        split_ifs at hnext
        · obtain ⟨-, rfl⟩ := Prod.mk.inj (Option.some.inj hnext)
          exact Or.inr hnext₁
        · obtain ⟨-, rfl⟩ := Prod.mk.inj (Option.some.inj hnext)
          exact Or.inl ha.symm
      dsimp only at hrun
      split_ifs at hrun with hsame
      · exact ih h₁ hsame hrun
      · obtain ⟨rfl, rfl⟩ := Prod.mk.inj (Option.some.inj hrun)
        exact ⟨hto.resolve_left hsame, h₁⟩

theorem mmstreamSetTail_freed {r : ℕ} (hr : s.store.nodes r = none) :
    mmstreamSetTail s (some r) = none := by
  unfold mmstreamSetTail
  dsimp only
  rw [hr]
  rfl

/-- A truncation returns only when it freed no extent: below the end of the extents, when it
cuts strictly inside the last one. -/
theorem mmstreamTruncate_shape (h : ExtentsShape s es) (hsize : size < 2 ^ 64)
    (hrun : mmstreamTruncate s size = some s') : ExtentsShape s' es ∧
      (size / 2 ^ 15 < s.extent → size / 2 ^ 15 = s.extent - 1 ∧ size % 2 ^ 15 ≠ 0) := by
  have hcount := h.count
  obtain ⟨l, hat, hcompute⟩ := mmlocationCompute_eq es s hsize
  obtain ⟨-, hoff, hblk, -⟩ := (hat _).mpr rfl
  have hends := mmextentAt_ends h (show size / 2 ^ 15 < 2 ^ 49 by omega)
  unfold mmstreamTruncate at hrun
  rw [hcompute] at hrun
  obtain ⟨l₀, hl₀, hrun⟩ := Option.bind_eq_some_iff.mp hrun
  obtain ⟨p, hp, rfl⟩ := Option.map_eq_some_iff.mp hl₀
  rw [hp] at hends
  obtain ⟨⟨l₁, s₁⟩, hzero, hrun⟩ := Option.bind_eq_some_iff.mp hrun
  obtain ⟨s₂, hfree, htail⟩ := Option.bind_eq_some_iff.mp hrun
  -- an extent that is freed is read afterwards
  have hroot : l₁.extent = none := by
    rcases hr : l₁.extent with _ | r
    · rfl
    · rw [hr] at hfree htail
      rw [mmstreamSetTail_freed (mmextentFreeLoop_first hfree)] at htail
      cases htail
  have hs' : s' = s₁ := by
    rw [hroot] at hfree htail
    unfold mmextentFreeLoop at hfree
    obtain rfl := Option.some.inj hfree
    exact (Option.some.inj htail).symm
  obtain ⟨j, hle, rfl⟩ := hends.exists_index
  unfold mmstreamZeroFrom at hzero
  dsimp only at hzero hoff hblk
  split_ifs at hzero with hcut
  · have hj : j < es.length := by
      by_contra hge
      rw [List.getElem?_eq_none (not_lt.mp hge)] at hzero
      unfold mmstreamZeroLoop at hzero
      cases hzero
    obtain ⟨hnext, h₁⟩ := mmstreamZeroLoop_shape h hj rfl hzero
    rw [hs']
    refine ⟨h₁, fun hlt => ⟨?_, by omega⟩⟩
    rw [hroot] at hnext
    have hend := List.getElem?_eq_none_iff.mp hnext.symm
    omega
  · obtain ⟨rfl, rfl⟩ := Prod.mk.inj (Option.some.inj hzero)
    rw [hs']
    refine ⟨h, fun hlt => ?_⟩
    have hend : es.length ≤ j := List.getElem?_eq_none_iff.mp hroot
    omega

/-! ## Runs of calls -/

/-- What a call can be given: 64-bit offsets and sizes. -/
def MmstreamCall.InRange : MmstreamCall → Prop
  | .write _ offset _ => offset < 2 ^ 64
  | .truncate size => size < 2 ^ 64
  | .clear => True

theorem mmstreamCall_shape {r : ℤ} {call : MmstreamCall} (h : ∃ es, ExtentsShape s es)
    (hcall : call.InRange) (hrun : mmstreamCall granted s call = some (r, s')) :
    ∃ es, ExtentsShape s' es := by
  obtain ⟨es, h⟩ := h
  cases call with
  | write buffer offset size => exact mmstreamWrite_shape h hcall hrun
  | truncate size =>
      obtain ⟨s₁, htrunc, heq⟩ := Option.map_eq_some_iff.mp hrun
      obtain ⟨-, rfl⟩ := Prod.mk.inj heq
      exact ⟨es, (mmstreamTruncate_shape h hcall htrunc).1⟩
  | clear =>
      obtain ⟨s₁, hclear, heq⟩ := Option.map_eq_some_iff.mp hrun
      obtain ⟨-, rfl⟩ := Prod.mk.inj heq
      obtain ⟨s₂, hclear₂, h₂⟩ := mmstreamClear_shape h
      obtain rfl := Option.some.inj (hclear.symm.trans hclear₂)
      exact ⟨[], h₂⟩

theorem mmstreamCalls_shape {calls : List MmstreamCall} {rs : List ℤ}
    (hcalls : ∀ call ∈ calls, call.InRange)
    (hrun : runAll (mmstreamCall granted) mmstreamAlloc calls = some (rs, s)) :
    ∃ es, ExtentsShape s es := by
  refine runAll_preserves (fun s => ∃ es, ExtentsShape s es) ?_ ⟨[], extentsShape_alloc⟩ hrun
  exact fun _ call hmem _ _ h hstep => mmstreamCall_shape h (hcalls call hmem) hstep

end Carthage
