import Carthage.Mmblock
import Mathlib.Data.Set.Card

/-!
# Shared blocks are independent arrays

The count of a block is never below the number of handles that point to it, so a block
whose count is 1 may be written in place. Every handle is then an array of its own, as long
as no write through a shared handle reaches behind the end of the block.
-/

namespace Carthage

variable {env : Allocator} {m m' : Mmblocks} {v : ℕ → Option (List UInt8)} {d : Mmiblock}
  {xs buf : List UInt8} {h b n offset limit : ℕ} {handles : ℕ → Option ℕ} {p : Option ℕ}

def pointing (handles : ℕ → Option ℕ) (b : ℕ) : Set ℕ := {h | handles h = some b}

/-- Every live handle has a block with its array, and every block counts its handles and is
smaller than `limit`. -/
structure MmblocksHold (limit : ℕ) (m : Mmblocks) (v : ℕ → Option (List UInt8)) : Prop where
  sound : m.blocks.Sound
  pool : m.blocks.pool = []
  finite : {h | m.handles h ≠ none}.Finite
  dead : ∀ h, m.handles h = none → v h = none
  arrays : ∀ h b, m.handles h = some b →
    ∃ d, m.blocks.nodes b = some d ∧ v h = some (d.data.read 0 d.size)
  sizes : ∀ b d, m.blocks.nodes b = some d → d.size < limit
  counts : ∀ b d, m.blocks.nodes b = some d → ((pointing m.handles b).ncard : ℤ) ≤ d.ref

/-- What a call may do to independent arrays. -/
inductive ArraysStep (v : ℕ → Option (List UInt8)) :
    MmblockOp × (ℤ × List UInt8) → (ℕ → Option (List UInt8)) → Prop
  | alloc (h n : ℕ) (bytes : List UInt8) : bytes.length = n →
      ArraysStep v (.alloc h n, 0, []) (Function.update v h (some bytes))
  | allocFailed (h n : ℕ) : ArraysStep v (.alloc h n, -1, []) (Function.update v h none)
  | copy (dest src : ℕ) (xs : List UInt8) : v src = some xs →
      ArraysStep v (.copy dest src, 0, []) (Function.update v dest (some xs))
  | write (h offset : ℕ) (buf xs : List UInt8) (k : ℕ) : v h = some xs → offset ≤ xs.length →
      k = min (xs.length - offset) buf.length →
      ArraysStep v (.write h offset buf, k, [])
        (Function.update v h (some (xs.take offset ++ buf.take k ++ xs.drop (offset + k))))
  | writeBeyond (h offset : ℕ) (buf xs : List UInt8) : v h = some xs → xs.length < offset →
      ArraysStep v (.write h offset buf, -14, []) v
  | writeFailed (h offset : ℕ) (buf xs : List UInt8) : v h = some xs → offset < xs.length →
      buf ≠ [] → ArraysStep v (.write h offset buf, -12, []) v
  | read (h offset n : ℕ) (xs : List UInt8) : v h = some xs → offset ≤ xs.length →
      ArraysStep v (.read h offset n, ((xs.drop offset).take n).length, (xs.drop offset).take n) v
  | readBeyond (h offset n : ℕ) (xs : List UInt8) : v h = some xs → xs.length < offset →
      ArraysStep v (.read h offset n, -14, []) v
  | free (h : ℕ) : ArraysStep v (.free h, 0, []) (Function.update v h none)

/-- Sizes and offsets are in range, a handle that is used is live, no count overflows, and a
detach copies inside the block. -/
def MmblockOp.Fits (env : Allocator) (m : Mmblocks) : MmblockOp → Prop
  | .alloc _ n => n < 2 ^ 31
  | .copy _ src => ∃ b d, m.handles src = some b ∧ m.blocks.nodes b = some d ∧ d.ref + 1 < 2 ^ 31
  | .write h offset buf => offset < 2 ^ 32 ∧ buf.length < 2 ^ 32 ∧
      ∃ b d, m.handles h = some b ∧ m.blocks.nodes b = some d ∧
        (d.ref ≠ 1 → offset < d.size → buf ≠ [] → env.granted m.requests = true →
          add32 offset buf.length ≤ d.size)
  | .read h offset n => offset < 2 ^ 32 ∧ n < 2 ^ 32 ∧ m.handles h ≠ none
  | .free h => m.handles h ≠ none

/-! ## Counting handles -/

theorem mem_pointing : h ∈ pointing handles b ↔ handles h = some b := Iff.rfl

theorem pointing_update_self : pointing (Function.update handles h (some b)) b =
    insert h (pointing handles b) := by
  ext x
  rw [Set.mem_insert_iff, mem_pointing, mem_pointing]
  rcases eq_or_ne x h with rfl | hne
  · rw [Function.update_self]
    exact ⟨fun _ => Or.inl rfl, fun _ => rfl⟩
  · rw [Function.update_of_ne hne]
    exact ⟨Or.inr, fun hor => hor.resolve_left hne⟩

theorem pointing_update_of_ne (hp : p ≠ some b) : pointing (Function.update handles h p) b =
    pointing handles b \ {h} := by
  ext x
  rw [Set.mem_sdiff, Set.mem_singleton_iff, mem_pointing, mem_pointing]
  rcases eq_or_ne x h with rfl | hne
  · rw [Function.update_self]
    exact ⟨fun hx => absurd hx hp, fun hx => absurd rfl hx.2⟩
  · rw [Function.update_of_ne hne]
    exact ⟨fun hx => ⟨hx, hne⟩, fun hx => hx.1⟩

theorem finite_pointing (hfin : {h | handles h ≠ none}.Finite) (b : ℕ) :
    (pointing handles b).Finite := by
  apply hfin.subset
  intro x hx
  rw [mem_pointing] at hx
  rw [Set.mem_ofPred_eq, hx]
  exact Option.some_ne_none b

theorem finite_update (hfin : {h | handles h ≠ none}.Finite) (h : ℕ) (p : Option ℕ) :
    {x | Function.update handles h p x ≠ none}.Finite := by
  apply (hfin.insert h).subset
  intro x hx
  rcases eq_or_ne x h with rfl | hne
  · exact Set.mem_insert _ _
  · rw [Set.mem_ofPred_eq, Function.update_of_ne hne] at hx
    exact Set.mem_insert_of_mem h hx

theorem ncard_pointing_update_le (hfin : {h | handles h ≠ none}.Finite) (h : ℕ)
    (hp : p ≠ some b) :
    (pointing (Function.update handles h p) b).ncard ≤ (pointing handles b).ncard := by
  rw [pointing_update_of_ne hp]
  exact Set.ncard_le_ncard Set.sdiff_subset (finite_pointing hfin b)

theorem ncard_pointing_update_lt (hfin : {h | handles h ≠ none}.Finite) (hp : p ≠ some b)
    (hh : handles h = some b) :
    (pointing (Function.update handles h p) b).ncard + 1 = (pointing handles b).ncard := by
  rw [pointing_update_of_ne hp]
  exact Set.ncard_sdiff_singleton_add_one hh (finite_pointing hfin b)

theorem MmblocksHold.ne_of_dead (hm : MmblocksHold limit m v) (hb : m.blocks.nodes b = none)
    (x : ℕ) : m.handles x ≠ some b := by
  intro hx
  obtain ⟨d, hd, -⟩ := hm.arrays x b hx
  simp [hb] at hd

theorem MmblocksHold.array (hm : MmblocksHold limit m v) (hh : m.handles h = some b)
    (hb : m.blocks.nodes b = some d) : v h = some (d.data.read 0 d.size) := by
  obtain ⟨d', hd', hv⟩ := hm.arrays h b hh
  obtain rfl := Option.some.inj (hb.symm.trans hd')
  exact hv

theorem MmblocksHold.update (hm : MmblocksHold limit m v) (m' : Mmblocks) (hs : m'.blocks.Sound)
    (hpool : m'.blocks.pool = []) {p : Option ℕ} {a : Option (List UInt8)}
    (hh : m'.handles = Function.update m.handles h p)
    (hself : p = none ∧ a = none ∨ ∃ b d, p = some b ∧ m'.blocks.nodes b = some d ∧
      a = some (d.data.read 0 d.size))
    (hother : ∀ x b, x ≠ h → m.handles x = some b → ∀ d, m.blocks.nodes b = some d →
      ∃ d', m'.blocks.nodes b = some d' ∧ d'.data.read 0 d'.size = d.data.read 0 d.size)
    (hcounts : ∀ b d, m'.blocks.nodes b = some d →
      d.size < limit ∧ ((pointing m'.handles b).ncard : ℤ) ≤ d.ref) :
    MmblocksHold limit m' (Function.update v h a) := by
  refine ⟨hs, hpool, ?_, fun x hx => ?_, fun x b hx => ?_, fun b d hd => (hcounts b d hd).1,
    fun b d hd => (hcounts b d hd).2⟩
  · rw [hh]
    exact finite_update hm.finite h p
  · rcases eq_or_ne x h with rfl | hne
    · rw [hh, Function.update_self] at hx
      rw [Function.update_self]
      rcases hself with ⟨-, ha⟩ | ⟨b, d, hp, -⟩
      · exact ha
      · rw [hx] at hp
        cases hp
    · rw [hh, Function.update_of_ne hne] at hx
      rw [Function.update_of_ne hne]
      exact hm.dead x hx
  · rcases eq_or_ne x h with rfl | hne
    · rw [hh, Function.update_self] at hx
      rw [Function.update_self]
      rcases hself with ⟨hp, -⟩ | ⟨b', d, hp, hd, ha⟩
      · rw [hx] at hp
        cases hp
      · obtain rfl := Option.some.inj (hx.symm.trans hp)
        exact ⟨d, hd, ha⟩
    · rw [hh, Function.update_of_ne hne] at hx
      rw [Function.update_of_ne hne]
      obtain ⟨d, hd, hv⟩ := hm.arrays x b hx
      obtain ⟨d', hd', hread⟩ := hother x b hne hx d hd
      exact ⟨d', hd', hread ▸ hv⟩

/-! ## Allocating and freeing -/

theorem mmiblockAlloc_cases (env : Allocator) (hm : MmblocksHold limit m v)
    (hn : n < 2 ^ 32 - mmiblockHead) :
    mmiblockAlloc env m n = some (none, { m with requests := m.requests + 1 }) ∨
    env.granted m.requests = true ∧ ∃ b blocks data, mmiblockAlloc env m n =
        some (some b, { m with blocks := blocks, requests := m.requests + 1 }) ∧
      m.blocks.nodes b = none ∧ blocks.Sound ∧ blocks.pool = [] ∧
      blocks.nodes = Function.update m.blocks.nodes b (some ⟨data, n, 1⟩) := by
  have hhead : ¬ add32 mmiblockHead n < mmiblockHead := by
    unfold mmiblockHead at hn ⊢
    rw [add32_eq (by omega)]
    omega
  unfold mmiblockAlloc
  cases htake : m.blocks.take (env.granted m.requests) ⟨env.uninit m.requests, n, 1⟩ with
  | none => exact Or.inl rfl
  | some r =>
      obtain ⟨b, blocks⟩ := r
      obtain ⟨hdead, hnodes, hsound⟩ := hm.sound.take htake
      unfold NodeStore.take at htake
      rw [hm.pool] at htake
      simp only at htake
      split_ifs at htake with hg
      obtain ⟨-, rfl⟩ := Prod.mk.inj (Option.some.inj htake)
      simp only [if_neg hhead]
      exact Or.inr ⟨hg, b, _, _, rfl, hdead, hsound, rfl, hnodes⟩

theorem MmblocksHold.pointing_dead (hm : MmblocksHold limit m v) (hb : m.blocks.nodes b = none) :
    (pointing (Function.update m.handles h (some b)) b).ncard = 1 := by
  have hempty : pointing m.handles b = ∅ :=
    Set.eq_empty_iff_forall_notMem.mpr fun x hx => hm.ne_of_dead hb x hx
  rw [pointing_update_self, hempty, insert_empty_eq, Set.ncard_singleton]

theorem mmiblockRelease_spec (hs : m.blocks.Sound) (hb : m.blocks.nodes b = some d) :
    ∃ blocks, mmiblockRelease m b = some { m with blocks := blocks } ∧ blocks.Sound ∧
      blocks.pool = m.blocks.pool ∧ (∀ b' ≠ b, blocks.nodes b' = m.blocks.nodes b') ∧
      blocks.nodes b = if d.ref - 1 = 0 then none else some { d with ref := d.ref - 1 } := by
  unfold mmiblockRelease
  simp only [hb, Option.bind_eq_bind, Option.bind_some, Option.pure_def]
  split_ifs with hlast
  · exact ⟨_, rfl, hs.give hb false, rfl, fun b' hne => Function.update_of_ne hne _ _,
      Function.update_self _ _ _⟩
  · exact ⟨_, rfl, hs.put hb, rfl, fun b' hne => Function.update_of_ne hne _ _,
      Function.update_self _ _ _⟩

theorem mmblockRead_spec (hm : MmblocksHold limit m v) (hb : m.handles h = some b)
    (hd : m.blocks.nodes b = some d) (hsmall : min n (d.size - offset) < 2 ^ 31) :
    ∃ r out, mmblockRead m h offset n = some (r, out) ∧
      ArraysStep v (.read h offset n, r, out) v := by
  have hv := hm.array hb hd
  have hlen : (d.data.read 0 d.size).length = d.size := Bytes.length_read
  unfold mmblockRead
  simp only [hb, hd, Option.bind_eq_bind, Option.bind_some, Option.pure_def]
  by_cases hbeyond : offset > d.size
  · rw [if_pos hbeyond]
    exact ⟨-14, [], rfl, .readBeyond h offset n _ hv (by omega)⟩
  · rw [if_neg hbeyond]
    have hrn : (if d.size - offset < n then d.size - offset else n) = min n (d.size - offset) := by
      split_ifs <;> omega
    have hout : d.data.read offset (min n (d.size - offset)) =
        ((d.data.read 0 d.size).drop offset).take n := by
      rw [Bytes.read_drop, Nat.zero_add, Bytes.read_min]
    have hlen' : (((d.data.read 0 d.size).drop offset).take n).length = min n (d.size - offset) := by
      rw [← hout, Bytes.length_read]
    rw [hrn, if_neg (not_le.mpr hsmall), hout, ← hlen']
    exact ⟨_, _, rfl, .read h offset n _ hv (by omega)⟩

theorem MmblocksHold.detach (hm : MmblocksHold limit m v) (hh : m.handles h = some b)
    (hd : m.blocks.nodes b = some d) {b₁ : ℕ} (hdead : m.blocks.nodes b₁ = none) (m' : Mmblocks)
    (hs : m'.blocks.Sound) (hpool : m'.blocks.pool = [])
    (hhandles : m'.handles = Function.update m.handles h (some b₁)) (data : Bytes)
    (hb₁ : m'.blocks.nodes b₁ = some ⟨data, d.size, 1⟩)
    (hb : m'.blocks.nodes b = some { d with ref := d.ref - 1 })
    (hkeep : ∀ b' ≠ b, b' ≠ b₁ → m'.blocks.nodes b' = m.blocks.nodes b') :
    MmblocksHold limit m' (Function.update v h (some (data.read 0 d.size))) := by
  refine hm.update m' hs hpool hhandles (Or.inr ⟨b₁, _, rfl, hb₁, rfl⟩)
    (fun x b' hne hx e he => ?_) (fun b' e he => ?_)
  · have hne₁ : b' ≠ b₁ := fun hc => hm.ne_of_dead hdead x (hc ▸ hx)
    rcases eq_or_ne b' b with rfl | hb'
    · obtain rfl := Option.some.inj (hd.symm.trans he)
      exact ⟨_, hb, rfl⟩
    · exact ⟨e, (hkeep b' hb' hne₁).trans he, rfl⟩
  · rw [hhandles]
    rcases eq_or_ne b' b₁ with rfl | hne₁
    · obtain rfl := Option.some.inj (hb₁.symm.trans he)
      rw [hm.pointing_dead hdead]
      exact ⟨hm.sizes b d hd, le_refl 1⟩
    · have hp : some b₁ ≠ some b' := by simpa using hne₁.symm
      rcases eq_or_ne b' b with rfl | hb'
      · obtain rfl := Option.some.inj (hb.symm.trans he)
        have hlt := ncard_pointing_update_lt hm.finite hp hh
        have hcount := hm.counts b' d hd
        refine ⟨hm.sizes b' d hd, ?_⟩
        change _ ≤ d.ref - 1
        omega
      · have he' := (hkeep b' hb' hne₁).symm.trans he
        have hle := ncard_pointing_update_le hm.finite h hp
        have hcount := hm.counts b' e he'
        exact ⟨hm.sizes b' e he', by omega⟩

theorem mmiblockDetach_spec (hm : MmblocksHold limit m v) (hlimit : limit ≤ 2 ^ 32 - mmiblockHead)
    (hd : m.blocks.nodes b = some d) (hshared : d.ref ≠ 1) (hoffset : offset ≤ d.size)
    (hfit : env.granted m.requests = true → add32 offset n ≤ d.size) :
    mmiblockDetach env m h b d offset n = some (none, { m with requests := m.requests + 1 }) ∨
    ∃ (b₁ : ℕ) (m₁ : Mmblocks) (new : Bytes), add32 offset n ≤ d.size ∧
      mmiblockDetach env m h b d offset n = some (some b₁, m₁) ∧ m.blocks.nodes b₁ = none ∧
      m₁.blocks.Sound ∧ m₁.blocks.pool = [] ∧
      m₁.handles = Function.update m.handles h (some b₁) ∧
      m₁.blocks.nodes b₁ = some ⟨fun i => if i < offset ∨ add32 offset n ≤ i then d.data i
        else new i, d.size, 1⟩ ∧
      m₁.blocks.nodes b = some { d with ref := d.ref - 1 } ∧
      ∀ b' ≠ b, b' ≠ b₁ → m₁.blocks.nodes b' = m.blocks.nodes b' := by
  unfold mmiblockDetach
  rcases mmiblockAlloc_cases env hm ((hm.sizes b d hd).trans_le hlimit) with
    hnone | ⟨hg, b₁, blocks, new, halloc, hdead, hsound, hpool, hnodes⟩
  · left
    rw [hnone]
    rfl
  · right
    have hne : b ≠ b₁ := by
      rintro rfl
      simp [hdead] at hd
    have hb₁ : blocks.nodes b₁ = some ⟨new, d.size, 1⟩ := by
      rw [hnodes]
      exact Function.update_self _ _ _
    have hd₁ : blocks.nodes b = some d := by
      rw [hnodes, Function.update_of_ne hne]
      exact hd
    let x : Mmiblock :=
      ⟨fun i => if i < offset ∨ add32 offset n ≤ i then d.data i else new i, d.size, 1⟩
    let m₁ : Mmblocks := ⟨Function.update m.handles h (some b₁), blocks.put b₁ x, m.requests + 1⟩
    have hb₁' : m₁.blocks.nodes b₁ = some x := Function.update_self _ _ _
    have hdm₁ : m₁.blocks.nodes b = some d := (Function.update_of_ne hne _ _).trans hd₁
    obtain ⟨blocks', hrel, hs', hpool', hkeep', hself'⟩ :=
      mmiblockRelease_spec (hsound.put hb₁) hdm₁
    have hinside : ¬ (offset > d.size ∨ add32 offset n > d.size) := by
      have := hfit hg
      omega
    rw [if_neg (by omega)] at hself'
    refine ⟨b₁, { m₁ with blocks := blocks' }, new, hfit hg, ?_, hdead, hs', hpool'.trans hpool,
      rfl, ?_, hself', fun b' hb' hb₁' => ?_⟩
    · rw [halloc]
      simp only [hb₁, if_neg hinside, Option.bind_eq_bind, Option.bind_some, Option.pure_def]
      change (mmiblockRelease m₁ b).bind _ = _
      rw [hrel]
      rfl
    · exact (hkeep' b₁ hne.symm).trans hb₁'
    · refine (hkeep' b' hb').trans ?_
      change (blocks.put b₁ x).nodes b' = _
      refine (Function.update_of_ne hb₁' _ _).trans ?_
      rw [hnodes]
      exact Function.update_of_ne hb₁' _ _

end Carthage
