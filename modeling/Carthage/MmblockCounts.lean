import Carthage.MmblockArrays

/-!
# The counts of shared blocks are exact

Every block counts just the handles that point to it, and a block without handles is free.
-/

namespace Carthage

variable {env : Allocator} {m m' : Mmblocks} {d : Mmiblock} {buf : List UInt8}
  {h b b' n offset : ℕ}

/-- Handles point to live blocks, and live blocks count their handles, of which there is at
least one. A live block was asked for with a size that had room for its head. -/
structure MmblocksExact (m : Mmblocks) : Prop where
  sound : m.blocks.Sound
  pool : m.blocks.pool = []
  finite : {h | m.handles h ≠ none}.Finite
  live : ∀ h b, m.handles h = some b → m.blocks.nodes b ≠ none
  sizes : ∀ b d, m.blocks.nodes b = some d → d.size < 2 ^ 32 - mmiblockHead
  count : ∀ b d, m.blocks.nodes b = some d → d.ref = (pointing m.handles b).ncard
  used : ∀ b d, m.blocks.nodes b = some d → (pointing m.handles b).Nonempty

/-! ## Moving a handle -/

namespace MmblocksExact

theorem dead (hm : MmblocksExact m) (hb : m.blocks.nodes b = none) : pointing m.handles b = ∅ := by
  apply Set.eq_empty_iff_forall_notMem.mpr
  intro x hx
  exact hm.live x b hx hb

theorem holds (hm : MmblocksExact m) : MmblocksHold (2 ^ 32 - mmiblockHead) m fun h =>
    (m.handles h).bind fun b => (m.blocks.nodes b).map fun d => d.data.read 0 d.size := by
  refine ⟨hm.sound, hm.pool, hm.finite, fun h hh => ?_, fun h b hh => ?_, hm.sizes,
    fun b d hd => (hm.count b d hd).ge⟩
  · simp only [hh, Option.bind_none]
  · obtain ⟨d, hd⟩ := Option.ne_none_iff_exists'.mp (hm.live h b hh)
    exact ⟨d, hd, by simp only [hh, hd, Option.bind_some, Option.map_some]⟩

theorem move (hm : MmblocksExact m) (h : ℕ) (p : Option ℕ) (hs : m'.blocks.Sound)
    (hpool : m'.blocks.pool = []) (hh : m'.handles = Function.update m.handles h p)
    (hsizes : ∀ b d, m'.blocks.nodes b = some d → d.size < 2 ^ 32 - mmiblockHead)
    (hself : ∀ b, p = some b → ∃ d, m'.blocks.nodes b = some d ∧
      d.ref = (insert h (pointing m.handles b)).ncard)
    (hother : ∀ b d, p ≠ some b → m'.blocks.nodes b = some d →
      (pointing m.handles b \ {h}).Nonempty ∧ d.ref = (pointing m.handles b \ {h}).ncard)
    (hkeep : ∀ x b, x ≠ h → m.handles x = some b → m'.blocks.nodes b ≠ none) :
    MmblocksExact m' := by
  refine ⟨hs, hpool, ?_, fun x b hx => ?_, hsizes, fun b d hd => ?_, fun b d hd => ?_⟩
  · rw [hh]
    exact finite_update hm.finite h p
  · rw [hh] at hx
    rcases eq_or_ne x h with rfl | hne
    · rw [Function.update_self] at hx
      obtain ⟨d, hd, -⟩ := hself b hx
      rw [hd]
      exact Option.some_ne_none d
    · rw [Function.update_of_ne hne] at hx
      exact hkeep x b hne hx
  · rw [hh]
    rcases eq_or_ne p (some b) with rfl | hp
    · obtain ⟨d', hd', href⟩ := hself b rfl
      obtain rfl := Option.some.inj (hd.symm.trans hd')
      rw [pointing_update_self, href]
    · rw [pointing_update_of_ne hp, (hother b d hp hd).2]
  · rw [hh]
    rcases eq_or_ne p (some b) with rfl | hp
    · rw [pointing_update_self]
      exact Set.insert_nonempty h _
    · rw [pointing_update_of_ne hp]
      exact (hother b d hp hd).1

theorem stays (hm : MmblocksExact m) (hh : m.handles h ≠ some b) (hb : m.blocks.nodes b = some d) :
    (pointing m.handles b \ {h}).Nonempty ∧ d.ref = (pointing m.handles b \ {h}).ncard := by
  rw [Set.sdiff_singleton_eq_self (show h ∉ pointing m.handles b from hh)]
  exact ⟨hm.used b d hb, hm.count b d hb⟩

theorem leaves (hm : MmblocksExact m) (hh : m.handles h = some b) (hb : m.blocks.nodes b = some d) :
    d.ref - 1 = (pointing m.handles b \ {h}).ncard ∧
      (d.ref - 1 ≠ 0 → (pointing m.handles b \ {h}).Nonempty) := by
  have hfin := finite_pointing hm.finite b
  have hcard := Set.ncard_sdiff_singleton_add_one (show h ∈ pointing m.handles b from hh) hfin
  have hcount := hm.count b d hb
  have heq : d.ref - 1 = (pointing m.handles b \ {h}).ncard := by omega
  refine ⟨heq, fun hne => ?_⟩
  apply Set.nonempty_of_ncard_ne_zero
  omega

theorem putData (hm : MmblocksExact m) (hd : m.blocks.nodes b = some d) (data : Bytes) :
    MmblocksExact { m with blocks := m.blocks.put b { d with data := data } } := by
  have hback : ∀ b' e, (m.blocks.put b { d with data := data }).nodes b' = some e →
      ∃ e', m.blocks.nodes b' = some e' ∧ e'.ref = e.ref ∧ e'.size = e.size := fun b' e he => by
    rcases eq_or_ne b' b with rfl | hne
    · have hself : some { d with data := data } = some e :=
        (Function.update_self b' _ m.blocks.nodes).symm.trans he
      obtain rfl := Option.some.inj hself
      exact ⟨d, hd, rfl, rfl⟩
    · exact ⟨e, (Function.update_of_ne hne _ _).symm.trans he, rfl, rfl⟩
  refine ⟨hm.sound.put hd, hm.pool, hm.finite, fun x b' hx => ?_, fun b' e he => ?_,
    fun b' e he => ?_, fun b' e he => ?_⟩
  · change (m.blocks.put b _).nodes b' ≠ none
    rcases eq_or_ne b' b with rfl | hne
    · exact (Function.update_self _ _ _).trans_ne (Option.some_ne_none _)
    · exact (Function.update_of_ne hne _ _).trans_ne (hm.live x b' hx)
  · obtain ⟨e', he', -, hsize⟩ := hback b' e he
    rw [← hsize]
    exact hm.sizes b' e' he'
  · obtain ⟨e', he', href, -⟩ := hback b' e he
    rw [← href]
    exact hm.count b' e' he'
  · obtain ⟨e', he', -⟩ := hback b' e he
    exact hm.used b' e' he'

theorem detach (hm : MmblocksExact m) (hh : m.handles h = some b) (hd : m.blocks.nodes b = some d)
    (hshared : d.ref ≠ 1) (hdead : m.blocks.nodes b' = none) (hs : m'.blocks.Sound)
    (hpool : m'.blocks.pool = []) (hhandles : m'.handles = Function.update m.handles h (some b'))
    {d' : Mmiblock} (hb' : m'.blocks.nodes b' = some d') (hone : d'.ref = 1)
    (hsize : d'.size = d.size) (hb : m'.blocks.nodes b = some { d with ref := d.ref - 1 })
    (hkeep : ∀ x ≠ b, x ≠ b' → m'.blocks.nodes x = m.blocks.nodes x) : MmblocksExact m' := by
  obtain ⟨hcount, hused⟩ := hm.leaves hh hd
  refine hm.move h (some b') hs hpool hhandles (fun x e he => ?_) (fun x hx => ?_)
    (fun x e hx he => ?_) (fun y x _ hy => ?_)
  · rcases eq_or_ne x b with rfl | hne
    · obtain rfl := Option.some.inj (hb.symm.trans he)
      exact hm.sizes x d hd
    rcases eq_or_ne x b' with rfl | hne'
    · obtain rfl := Option.some.inj (hb'.symm.trans he)
      exact hsize ▸ hm.sizes b d hd
    · exact hm.sizes x e ((hkeep x hne hne').symm.trans he)
  · obtain rfl := Option.some.inj hx
    refine ⟨d', hb', ?_⟩
    rw [hm.dead hdead, insert_empty_eq, Set.ncard_singleton, hone]
    rfl
  · have hne' : x ≠ b' := fun heq => hx (heq ▸ rfl)
    rcases eq_or_ne x b with rfl | hne
    · obtain rfl := Option.some.inj (hb.symm.trans he)
      exact ⟨hused (by omega), hcount⟩
    · exact hm.stays (by rw [hh]; exact fun hc => hne (Option.some.inj hc).symm)
        ((hkeep x hne hne').symm.trans he)
  · rcases eq_or_ne x b with rfl | hne
    · rw [hb]
      exact Option.some_ne_none _
    · rw [hkeep x hne (fun heq => hm.live y x hy (heq ▸ hdead))]
      exact hm.live y x hy

end MmblocksExact

/-! ## Calls -/

theorem mmblockAlloc_exact (env : Allocator) (hm : MmblocksExact m) (hh : m.handles h = none)
    (hn : n < 2 ^ 32 - mmiblockHead) :
    ∃ r m', mmblockAlloc env m h n = some (r, m') ∧ MmblocksExact m' := by
  unfold mmblockAlloc
  rcases mmiblockAlloc_cases env hm.holds hn with
    hnone | ⟨-, b, blocks, data, halloc, hdead, hsound, hpool, hnodes⟩
  · rw [hnone]
    refine ⟨_, _, rfl, ?_⟩
    exact hm.move h none hm.sound hm.pool rfl hm.sizes (fun b hb => (nomatch hb))
      (fun b d _ hd => hm.stays (by simp [hh]) hd) (fun x b _ hx => hm.live x b hx)
  · rw [halloc]
    have hb : blocks.nodes b = some ⟨data, n, 1⟩ := by
      rw [hnodes, Function.update_self]
    have hkeep : ∀ b' ≠ b, blocks.nodes b' = m.blocks.nodes b' := fun b' hne => by
      rw [hnodes, Function.update_of_ne hne]
    refine ⟨_, _, rfl, hm.move h (some b) hsound hpool rfl (fun b' d hd => ?_)
      (fun b' hb' => ?_) (fun b' d hne hd => ?_) (fun x b' _ hx => ?_)⟩
    · change blocks.nodes b' = some d at hd
      rcases eq_or_ne b' b with rfl | hne
      · obtain rfl := Option.some.inj (hb.symm.trans hd)
        exact hn
      · exact hm.sizes b' d ((hkeep b' hne).symm.trans hd)
    · obtain rfl := Option.some.inj hb'
      refine ⟨_, hb, ?_⟩
      rw [hm.dead hdead, insert_empty_eq, Set.ncard_singleton]
      rfl
    · have hne' : b' ≠ b := fun he => hne (he ▸ rfl)
      exact hm.stays (by simp [hh]) ((hkeep b' hne').symm.trans hd)
    · have hne : b' ≠ b := fun he => hm.live x b' hx (he ▸ hdead)
      change blocks.nodes b' ≠ none
      rw [hkeep b' hne]
      exact hm.live x b' hx

theorem mmblockCopy_exact {dest src : ℕ} (hm : MmblocksExact m) (hdest : m.handles dest = none)
    (hsrc : m.handles src = some b) (hroom : (pointing m.handles b).ncard + 1 < 2 ^ 31) :
    ∃ m', mmblockCopy m dest src = some m' ∧ MmblocksExact m' := by
  obtain ⟨d, hd⟩ := Option.ne_none_iff_exists'.mp (hm.live src b hsrc)
  have hcount := hm.count b d hd
  have href : ¬ d.ref + 1 ≥ 2 ^ 31 := by omega
  let d' : Mmiblock := { d with ref := d.ref + 1 }
  let m' : Mmblocks := { m with
    blocks := m.blocks.put b d', handles := Function.update m.handles dest (some b) }
  have hb' : m'.blocks.nodes b = some d' := Function.update_self _ _ _
  have hkeep : ∀ b' ≠ b, m'.blocks.nodes b' = m.blocks.nodes b' := fun b' hne =>
    Function.update_of_ne hne _ _
  refine ⟨m', ?_, hm.move dest (some b) (hm.sound.put hd) hm.pool rfl (fun b' e he => ?_)
    (fun b' he => ?_) (fun b' e hne he => ?_) (fun x b' _ hx => ?_)⟩
  · simp only [mmblockCopy, hsrc, hd, if_neg href, Option.bind_eq_bind, Option.bind_some,
      Option.pure_def, m', d']
  · rcases eq_or_ne b' b with rfl | hne
    · obtain rfl := Option.some.inj (hb'.symm.trans he)
      exact hm.sizes b' d hd
    · exact hm.sizes b' e ((hkeep b' hne).symm.trans he)
  · obtain rfl := Option.some.inj he
    refine ⟨d', hb', ?_⟩
    rw [Set.ncard_insert_of_notMem (by rw [mem_pointing, hdest]; exact (Option.some_ne_none b).symm)
      (finite_pointing hm.finite b)]
    change d.ref + 1 = _
    omega
  · have hne' : b' ≠ b := fun he => hne (he ▸ rfl)
    exact hm.stays (by simp [hdest]) ((hkeep b' hne').symm.trans he)
  · rcases eq_or_ne b' b with rfl | hne
    · rw [hb']
      exact Option.some_ne_none d'
    · rw [hkeep b' hne]
      exact hm.live x b' hx

theorem mmblockFree_exact (hm : MmblocksExact m) (hh : m.handles h ≠ none) :
    ∃ m', mmblockFree m h = some m' ∧ MmblocksExact m' := by
  obtain ⟨b, hb⟩ := Option.ne_none_iff_exists'.mp hh
  obtain ⟨d, hd⟩ := Option.ne_none_iff_exists'.mp (hm.live h b hb)
  obtain ⟨blocks, hrel, hs, hpool, hkeep, hself⟩ := mmiblockRelease_spec hm.sound hd
  obtain ⟨hcount, hused⟩ := hm.leaves hb hd
  let m' : Mmblocks := { m with blocks := blocks, handles := Function.update m.handles h none }
  refine ⟨m', ?_, hm.move h none hs (hpool.trans hm.pool) rfl (fun b' e he => ?_)
    (fun b' he => (nomatch he)) (fun b' e _ he => ?_) (fun x b' hne hx => ?_)⟩
  · simp only [mmblockFree, hb, hrel, Option.bind_eq_bind, Option.bind_some, Option.pure_def, m']
  · change blocks.nodes b' = some e at he
    rcases eq_or_ne b' b with rfl | hb'
    · rw [hself] at he
      split_ifs at he
      obtain rfl := Option.some.inj he
      exact hm.sizes b' d hd
    · exact hm.sizes b' e ((hkeep b' hb').symm.trans he)
  · change blocks.nodes b' = some e at he
    rcases eq_or_ne b' b with rfl | hb'
    · rw [hself] at he
      split_ifs at he with hlast
      obtain rfl := Option.some.inj he
      exact ⟨hused hlast, hcount⟩
    · rw [hkeep b' hb'] at he
      exact hm.stays (by rw [hb]; exact fun hc => hb' (Option.some.inj hc).symm) he
  · change blocks.nodes b' ≠ none
    rcases eq_or_ne b' b with rfl | hb'
    · have hmem : x ∈ pointing m.handles b' \ {h} := ⟨hx, hne⟩
      have hpos := (Set.ncard_pos ((finite_pointing hm.finite b').sdiff)).mpr ⟨x, hmem⟩
      rw [hself, if_neg (by omega)]
      exact Option.some_ne_none _
    · rw [hkeep b' hb']
      exact hm.live x b' hx

theorem mmblockWrite_exact (env : Allocator) (hm : MmblocksExact m) (hh : m.handles h = some b)
    (hd : m.blocks.nodes b = some d) (hfit : offset + buf.length ≤ d.size) (hsize : d.size < 2 ^ 31) :
    ∃ r m', mmblockWrite env m h offset buf = some (r, m') ∧ MmblocksExact m' := by
  have hbeyond : ¬ offset > d.size := by omega
  have hwn : (if d.size - offset < buf.length then d.size - offset else buf.length) =
      buf.length := if_neg (by omega)
  have htake : buf.take buf.length = buf := List.take_length
  have hlow : ¬ buf.length ≥ 2 ^ 31 := by omega
  by_cases hzero : buf.length = 0
  · refine ⟨0, m, ?_, hm⟩
    unfold mmblockWrite
    simp only [hh, hd, if_neg hbeyond, hwn, if_pos hzero, Option.bind_eq_bind, Option.bind_some,
      Option.pure_def]
  by_cases hone : d.ref = 1
  · have hcopy : d.data.memcpy 0 d.size offset buf = some (d.data.write offset buf) :=
      Bytes.memcpy_eq ⟨Nat.zero_le _, by omega⟩
    refine ⟨buf.length, _, ?_, hm.putData hd (d.data.write offset buf)⟩
    unfold mmblockWrite
    simp only [hh, hd, if_neg hbeyond, hwn, if_neg hzero, if_neg (not_not.mpr hone), hlow,
      if_false, htake, hcopy,
      Option.bind_eq_bind, Option.bind_some, Option.pure_def]
  · have hwrap : add32 offset buf.length = offset + buf.length := add32_eq (by omega)
    rcases mmiblockDetach_spec (h := h) (n := buf.length) hm.holds (le_refl _) hd hone (by omega)
        (fun (_ : env.granted m.requests = true) => hwrap.trans_le hfit) with
      hnone | ⟨b₁, m₁, new, -, hdetach, hdead, hs, hpool, hhandles, hb₁, hb, hkeep⟩
    · refine ⟨-12, { m with requests := m.requests + 1 }, ?_,
        ⟨hm.sound, hm.pool, hm.finite, hm.live, hm.sizes, hm.count, hm.used⟩⟩
      unfold mmblockWrite
      simp only [hh, hd, if_neg hbeyond, hwn, if_neg hzero, if_pos hone, hnone,
        Option.bind_eq_bind, Option.bind_some, Option.pure_def]
    · let data : Bytes := fun i =>
        if i < offset ∨ add32 offset buf.length ≤ i then d.data i else new i
      have hcopy : data.memcpy 0 d.size offset buf = some (data.write offset buf) :=
        Bytes.memcpy_eq ⟨Nat.zero_le _, by omega⟩
      have hm₁ := hm.detach hh hd hone hdead hs hpool hhandles hb₁ rfl rfl hb hkeep
      refine ⟨buf.length, _, ?_, hm₁.putData hb₁ (data.write offset buf)⟩
      unfold mmblockWrite
      simp only [hh, hd, if_neg hbeyond, hwn, if_neg hzero, if_pos hone, hdetach, hb₁, hlow,
        if_false, htake, hcopy, Option.bind_eq_bind, Option.bind_some, Option.pure_def, data]

theorem mmblockRead_exact (hm : MmblocksExact m) (hh : m.handles h = some b)
    (hd : m.blocks.nodes b = some d) (hsmall : min n (d.size - offset) < 2 ^ 31) :
    ∃ r, mmblockRead m h offset n = some r := by
  obtain ⟨r, out, hread, -⟩ := mmblockRead_spec hm.holds hh hd hsmall
  exact ⟨(r, out), hread⟩

/-! ## Runs -/

/-- A handle takes a block only while it is not live, the size of a block leaves room for its
head, fewer than 2^31 handles share a block, a write ends inside the block, and a read has fewer
than 2^31 bytes to deliver. -/
def MmblockOp.Careful (m : Mmblocks) : MmblockOp → Prop
  | .alloc h n => m.handles h = none ∧ n < 2 ^ 32 - mmiblockHead
  | .copy dest src => m.handles dest = none ∧ ∃ b, m.handles src = some b ∧
      (pointing m.handles b).ncard + 1 < 2 ^ 31
  | .write h offset buf => ∃ b d, m.handles h = some b ∧ m.blocks.nodes b = some d ∧
      offset + buf.length ≤ d.size ∧ d.size < 2 ^ 31
  | .read h offset n => ∃ b d, m.handles h = some b ∧ m.blocks.nodes b = some d ∧
      min n (d.size - offset) < 2 ^ 31
  | .free h => m.handles h ≠ none

theorem mmblockStep_exact (env : Allocator) (hm : MmblocksExact m) {op : MmblockOp}
    (hop : op.Careful m) : ∃ r m', mmblockStep env m op = some (r, m') ∧ MmblocksExact m' := by
  cases op with
  | alloc h n =>
      obtain ⟨r, m', halloc, hm'⟩ := mmblockAlloc_exact env hm hop.1 hop.2
      refine ⟨(r, []), m', ?_, hm'⟩
      simp only [mmblockStep, halloc, Option.bind_eq_bind, Option.bind_some, Option.pure_def]
  | copy dest src =>
      obtain ⟨hdest, b, hsrc, hroom⟩ := hop
      obtain ⟨m', hcopy, hm'⟩ := mmblockCopy_exact hm hdest hsrc hroom
      refine ⟨(0, []), m', ?_, hm'⟩
      simp only [mmblockStep, hcopy, Option.bind_eq_bind, Option.bind_some, Option.pure_def]
  | write h offset buf =>
      obtain ⟨b, d, hh, hd, hfit, hsize⟩ := hop
      obtain ⟨r, m', hwrite, hm'⟩ := mmblockWrite_exact env hm hh hd hfit hsize
      refine ⟨(r, []), m', ?_, hm'⟩
      simp only [mmblockStep, hwrite, Option.bind_eq_bind, Option.bind_some, Option.pure_def]
  | read h offset n =>
      obtain ⟨b, d, hh, hd, hsmall⟩ := hop
      obtain ⟨r, hread⟩ := mmblockRead_exact hm hh hd hsmall
      refine ⟨r, m, ?_, hm⟩
      simp only [mmblockStep, hread, Option.bind_eq_bind, Option.bind_some, Option.pure_def]
  | free h =>
      obtain ⟨m', hfree, hm'⟩ := mmblockFree_exact hm hop
      refine ⟨(0, []), m', ?_, hm'⟩
      simp only [mmblockStep, hfree, Option.bind_eq_bind, Option.bind_some, Option.pure_def]

theorem mmblocksExact_init : MmblocksExact mmblocksInit :=
  ⟨NodeStore.sound_empty, rfl, by simp [mmblocksInit], fun _ _ hx => (nomatch hx),
    fun _ _ hd => (nomatch hd), fun _ _ hd => (nomatch hd), fun _ _ hd => (nomatch hd)⟩

/-- Careful runs only touch blocks that are live; a block is live while a handle points to it,
and counts the handles that do. -/
theorem mmblockRun_counts (env : Allocator) (ops : List MmblockOp)
    (hops : Meets (mmblockStep env) (fun m op => op.Careful m) mmblocksInit ops) :
    ∃ rs m, runAll (mmblockStep env) mmblocksInit ops = some (rs, m) ∧
      (∀ b, m.blocks.nodes b ≠ none ↔ ∃ h, m.handles h = some b) ∧
      ∀ b d, m.blocks.nodes b = some d → {h | m.handles h = some b}.Finite ∧
        d.ref = {h | m.handles h = some b}.ncard := by
  obtain ⟨rs, m, hrun, hm⟩ := runAll_invariant MmblocksExact
    (fun _ _ hm hop => mmblockStep_exact env hm hop) mmblocksExact_init hops
  refine ⟨rs, m, hrun, fun b => ⟨fun hb => ?_, fun ⟨h, hh⟩ => hm.live h b hh⟩,
    fun b d hd => ⟨finite_pointing hm.finite b, hm.count b d hd⟩⟩
  obtain ⟨d, hd⟩ := Option.ne_none_iff_exists'.mp hb
  exact hm.used b d hd

theorem mmblockRun_counts_detached : ∃ rs m,
    runAll (mmblockStep ⟨fun _ => true, fun _ _ => 0⟩) mmblocksInit
      [.alloc 0 4, .copy 1 0, .write 0 1 [7, 8]] = some (rs, m) ∧
      (∀ b, m.blocks.nodes b ≠ none ↔ ∃ h, m.handles h = some b) ∧
      ∀ b d, m.blocks.nodes b = some d → {h | m.handles h = some b}.Finite ∧
        d.ref = {h | m.handles h = some b}.ncard := by
  apply mmblockRun_counts
  refine ⟨⟨rfl, by decide⟩, ?_⟩
  rintro r m ⟨⟩
  refine ⟨⟨rfl, 0, rfl, ?_⟩, ?_⟩
  · have hle : (pointing (Function.update mmblocksInit.handles 0 (some 0)) 0).ncard ≤
        ({0} : Set ℕ).ncard := by
      apply Set.ncard_le_ncard _ (Set.finite_singleton 0)
      intro x hx
      by_contra hne
      rw [mem_pointing, Function.update_of_ne hne] at hx
      cases hx
    rw [Set.ncard_singleton] at hle
    exact (Nat.add_le_add_right hle 1).trans_lt (by norm_num)
  · rintro r m ⟨⟩
    exact ⟨⟨0, _, rfl, rfl, by norm_num, by norm_num⟩, fun _ _ _ => trivial⟩

theorem mmblockRun_copies (n : ℕ) (hn : n + 1 < 2 ^ 31) : ∃ rs m d,
    runAll (mmblockStep ⟨fun _ => true, fun _ _ => 0⟩) mmblocksInit
      (.alloc 0 1 :: (List.range n).map fun k => .copy (k + 1) 0) = some (rs, m) ∧
      m.handles 0 = some 0 ∧ m.blocks.nodes 0 = some d ∧ d.ref = n + 1 := by
  induction n with
  | zero => exact ⟨_, _, _, rfl, rfl, rfl, rfl⟩
  | succ n ih =>
      obtain ⟨rs, m, d, hrun, hh, hd, href⟩ := ih (by omega)
      have hroom : ¬ d.ref + 1 ≥ 2 ^ 31 := by omega
      let m' : Mmblocks := { m with
        blocks := m.blocks.put 0 { d with ref := d.ref + 1 }
        handles := Function.update m.handles (n + 1) (some 0) }
      have hd' : m'.blocks.nodes 0 = some { d with ref := d.ref + 1 } :=
        Function.update_self 0 _ m.blocks.nodes
      refine ⟨rs ++ [(0, [])], m', _, ?_, ?_, hd', ?_⟩
      · rw [List.range_succ, List.map_append, ← List.cons_append, runAll_append, hrun]
        simp only [List.map_cons, List.map_nil, runAll, mmblockStep, mmblockCopy, hh, hd,
          if_neg hroom, Option.bind_eq_bind, Option.bind_some, Option.pure_def, Option.map_some]
        rfl
      · change Function.update m.handles (n + 1) (some 0) 0 = some 0
        rw [Function.update_of_ne (Nat.succ_ne_zero n).symm, hh]
      · change d.ref + 1 = _
        omega

/-- A handle that takes a second block leaves the first one behind, the count of a block overflows
with the 2^31-th handle, and where the head and the bytes of a block take 2^32 bytes, the head is
written outside the block. -/
theorem mmblockRun_miscounts :
    (∃ rs m d, runAll (mmblockStep ⟨fun _ => true, fun _ _ => 0⟩) mmblocksInit
      [.alloc 0 1, .alloc 0 1] = some (rs, m) ∧ m.blocks.nodes 0 = some d ∧ d.ref = 1 ∧
        ∀ h, m.handles h ≠ some 0) ∧
    runAll (mmblockStep ⟨fun _ => true, fun _ _ => 0⟩) mmblocksInit
      (.alloc 0 1 :: (List.range (2 ^ 31 - 1)).map fun k => .copy (k + 1) 0) = none ∧
    runAll (mmblockStep ⟨fun _ => true, fun _ _ => 0⟩) mmblocksInit
      [.alloc 0 (2 ^ 32 - mmiblockHead)] = none := by
  refine ⟨?_, ?_, rfl⟩
  · refine ⟨_, _, _, rfl, rfl, rfl, fun h => ?_⟩
    change Function.update (Function.update mmblocksInit.handles 0 (some 0)) 0 (some 1) h ≠ some 0
    rw [Function.update_idem]
    rcases eq_or_ne h 0 with rfl | hne
    · rw [Function.update_self]
      decide
    · rw [Function.update_of_ne hne]
      exact (Option.some_ne_none 0).symm
  · have hlast : (2 : ℕ) ^ 31 - 1 = (2 ^ 31 - 2) + 1 := by norm_num
    obtain ⟨rs, m, d, hrun, hh, hd, href⟩ := mmblockRun_copies (2 ^ 31 - 2) (by norm_num)
    have hfull : d.ref + 1 ≥ 2 ^ 31 := by omega
    rw [hlast, List.range_succ, List.map_append, ← List.cons_append, runAll_append, hrun]
    simp only [List.map_cons, List.map_nil, runAll, mmblockStep, mmblockCopy, hh, hd,
      if_pos hfull, Option.bind_eq_bind, Option.bind_some, Option.bind_none, Option.map_none]

end Carthage
