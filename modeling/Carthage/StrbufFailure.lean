import Carthage.StrbufReplace

/-!
# Calls that fail

A call of a string buffer that returns a non-zero code should have changed nothing. All growing
edits make room first, and fail there or nowhere, with two exceptions: `strbuf_replace` removes
before it makes room, and a source that lies in the block is duplicated by `strndup` after it.
Room for almost `2 ^ 64` bytes is rounded up to none at all, and asking for it frees the block.
-/

namespace Carthage

section Model

variable (env : Allocator)

/-- `strndup` of a source inside the block, with its result code. -/
def Strbuf.duplicate (s : Strbuf) : ℤ × Strbuf :=
  (if env.granted s.requests then 0 else -1, { s with requests := s.requests + 1 })

/-- `strbuf_prepend` of a source that lies in the block once there is room. -/
def strbufPrependInside (s : Strbuf) (blob : List UInt8) : Option (ℤ × Strbuf) := do
  let size := add64 s.size blob.length
  let (rc, s) ← s.reserve env size
  if rc ≠ 0 then return (-1, s)
  let (rc, s) := s.duplicate env
  if rc ≠ 0 then return (-1, s)
  let s ← s.move blob.length 0 s.size
  let s ← s.store 0 blob
  let s ← s.terminate size
  return (0, s)

/-- `strbuf_insert` of a source that lies in the block once there is room. -/
def strbufInsertInside (s : Strbuf) (index : ℕ) (blob : List UInt8) : Option (ℤ × Strbuf) := do
  let size := add64 s.size blob.length
  let size := if index > s.size then add64 size (index - s.size) else size
  let (rc, s) ← s.reserve env size
  if rc ≠ 0 then return (-1, s)
  if index > s.size then
    let s ← s.store s.size (List.replicate (index - s.size) 32)
    let s ← s.store index blob
    let s ← s.terminate size
    return (0, s)
  else
    let (rc, s) := s.duplicate env
    if rc ≠ 0 then return (-1, s)
    let s ← s.move (index + blob.length) index (s.size - index)
    let s ← s.store index blob
    let s ← s.terminate size
    return (0, s)

def strbufReplaceInside (s : Strbuf) (index size : ℕ) (blob : List UInt8) :
    Option (ℤ × Strbuf) :=
  if size = blob.length ∧ add64 index blob.length ≤ s.size then do
    let s ← s.store index blob
    return (0, s)
  else do
    let (_, s) ← strbufRemove s index blob.length
    let (rc, s) ← strbufInsertInside env s index blob
    return (if rc ≠ 0 then -3 else 0, s)

/-- A call whose source lies in no string buffer or in the one that is edited. -/
inductive StrbufCall
  | outside (op : StrbufOp)
  | prependInside (blob : List UInt8)
  | insertInside (index : ℕ) (blob : List UInt8)
  | replaceInside (index size : ℕ) (blob : List UInt8)

def StrbufCall.run (s : Strbuf) : StrbufCall → Option (ℤ × Strbuf)
  | .outside op => strbufStep env s op
  | .prependInside blob => strbufPrependInside env s blob
  | .insertInside index blob => strbufInsertInside env s index blob
  | .replaceInside index size blob => strbufReplaceInside env s index size blob

def Strbuf.withRoom (s : Strbuf) (n : ℕ) (edit : Strbuf → Option (ℤ × Strbuf)) :
    Option (ℤ × Strbuf) :=
  (s.reserve env n).bind fun r => if r.1 ≠ 0 then some (-1, r.2) else edit r.2

def Strbuf.withCopy (edit : Strbuf → Option (ℤ × Strbuf)) (s : Strbuf) : Option (ℤ × Strbuf) :=
  let (rc, s) := s.duplicate env
  if rc ≠ 0 then some (-1, s) else edit s

end Model

variable {env : Allocator} {s s' : Strbuf} {mem : Bytes} {blob : List UInt8} {index n : ℕ} {rc : ℤ}

/-- The same string in a block of the same size. -/
structure Strbuf.Kept (s s' : Strbuf) : Prop where
  size : s'.size = s.size
  blksz : s'.blksz = s.blksz
  contents : s'.contents = s.contents
  block : s'.blob = none ↔ s.blob = none

/-- Whenever the call reports a failure, it has changed nothing. -/
def StrbufCall.FailsClean (env : Allocator) (s : Strbuf) (call : StrbufCall) : Prop :=
  ∀ rc s', call.run env s = some (rc, s') → rc ≠ 0 → s.Kept s'

/-- There is a block, and room for `n` bytes is rounded up to no byte at all. -/
def Strbuf.Frees (s : Strbuf) (n : ℕ) : Prop := s.blob ≠ none ∧ n < 2 ^ 64 ∧ 2 ^ 64 ≤ n + 1023

/-- The call does not fail after its first change: the block is not freed by a reallocation to no
bytes, and neither a reallocation behind a removal nor a duplication behind either is refused. -/
def StrbufCall.FailsFirst (env : Allocator) (s : Strbuf) : StrbufCall → Prop
  | .outside (.insert index blob) => ¬ s.Frees (index + blob.length)
  | .outside (.replace index _ blob) =>
      ¬ s.Frees (index + blob.length) ∧
        (index < s.size → blob ≠ [] → s.blksz < index + blob.length →
          env.granted s.requests = true)
  | .outside (.mmreserve n) => ¬ s.Frees n
  | .outside .mmsqueeze => s.blob ≠ none → s.size ≠ 0
  | .outside _ => True
  | .prependInside blob =>
      s.blksz < s.size + blob.length → env.granted s.requests = true →
        env.granted (s.requests + 1) = true
  | .insertInside index blob =>
      ¬ s.Frees (index + blob.length) ∧
        (index ≤ s.size → s.blksz < s.size + blob.length → env.granted s.requests = true →
          env.granted (s.requests + 1) = true)
  | .replaceInside index size blob =>
      ¬ s.Frees (index + blob.length) ∧
        (size = blob.length ∧ index + blob.length ≤ s.size ∨
          if index < s.size ∧ blob ≠ [] then
            env.granted s.requests = true ∧
              (s.blksz < index + blob.length → env.granted (s.requests + 1) = true)
          else index ≤ s.size → s.blksz < s.size + blob.length → env.granted s.requests = true →
            env.granted (s.requests + 1) = true)

/-- The index or the size that a call is given, a `size_t`. -/
def StrbufCall.number : StrbufCall → ℕ
  | .outside (.insert index _) | .outside (.replace index _ _) => index
  | .outside (.mmreserve n) => n
  | .outside _ | .prependInside _ => 0
  | .insertInside index _ | .replaceInside index _ _ => index

/-- The bytes that a call is given. -/
def StrbufCall.source : StrbufCall → List UInt8
  | .outside (.set blob) | .outside (.append blob) | .outside (.prepend blob)
  | .outside (.insert _ blob) | .outside (.replace _ _ blob) => blob
  | .outside _ => []
  | .prependInside blob | .insertInside _ blob | .replaceInside _ _ blob => blob

/-! ## Making room -/

theorem Strbuf.Kept.asked (s : Strbuf) (k : ℕ) : s.Kept { s with requests := k } :=
  ⟨rfl, rfl, rfl, Iff.rfl⟩

theorem strbufCapacity_eq_zero (hn : n ≠ 0) (hw : n < 2 ^ 64) :
    strbufCapacity n = 0 ↔ 2 ^ 64 ≤ n + 1023 := by
  unfold strbufCapacity alignUp add64
  split_ifs <;> omega

theorem strbufCapacity_ne_zero (hn : n + 1023 < 2 ^ 64) (hpos : 0 < n) : strbufCapacity n ≠ 0 := by
  have hge := (strbufCapacity_ge hn).1
  omega

theorem Strbuf.reserve_failed (h : s.reserve env n = some (rc, s')) (hrc : rc ≠ 0)
    (hz : s.blob ≠ none → s.blksz < n → strbufCapacity n ≠ 0) :
    s.Kept s' ∧ s.blksz < n ∧ env.granted s.requests = false := by
  unfold Strbuf.reserve Strbuf.resize at h
  split_ifs at h with hn hfreed hzero hg
  · exact absurd hzero.2 (hz (Option.isSome_iff_ne_none.mp hzero.1) hn)
  · exact absurd (Prod.mk.inj (Option.some.inj h)).1.symm hrc
  · obtain ⟨-, rfl⟩ := Prod.mk.inj (Option.some.inj h)
    exact ⟨Strbuf.Kept.asked s _, hn, Bool.eq_false_iff.mpr hg⟩
  · exact absurd (Prod.mk.inj (Option.some.inj h)).1.symm hrc

theorem Strbuf.reserve_size (h : s.reserve env n = some (rc, s')) : s'.size = s.size := by
  unfold Strbuf.reserve Strbuf.resize at h
  split_ifs at h <;> obtain ⟨-, rfl⟩ := Prod.mk.inj (Option.some.inj h) <;> rfl

theorem Strbuf.reserve_fits (hn : n ≤ s.blksz) : s.reserve env n = some (0, s) :=
  if_neg (by omega)

theorem Strbuf.reserve_frees (hb : s.blob ≠ none) (hn : s.blksz < n) (hz : strbufCapacity n = 0) :
    s.reserve env n =
      some (-1, { s with blob := none, freed := true, requests := s.requests + 1 }) := by
  unfold Strbuf.reserve
  rw [if_pos hn, hz, Strbuf.resize_zero hb]

theorem Strbuf.reserve_refused (hf : s.blob = none → s.freed = false)
    (hz : s.blob ≠ none → strbufCapacity n ≠ 0) (hn : s.blksz < n)
    (hg : env.granted s.requests = false) :
    s.reserve env n = some (-1, { s with requests := s.requests + 1 }) := by
  unfold Strbuf.reserve
  rw [if_pos hn, Strbuf.resize_eq hf hz, hg]
  rfl

theorem Strbuf.reserve_granted (hf : s.blob = none → s.freed = false)
    (hz : s.blob ≠ none → strbufCapacity n ≠ 0) (hn : s.blksz < n)
    (hg : env.granted s.requests = true) :
    ∃ s', s.reserve env n = some (0, s') ∧ s'.blksz = strbufCapacity n ∧ s'.size = s.size ∧
      s'.requests = s.requests + 1 := by
  unfold Strbuf.reserve
  rw [if_pos hn, Strbuf.resize_eq hf hz, hg]
  exact ⟨_, rfl, rfl, rfl, rfl⟩

theorem Strbuf.withRoom_failed {edit : Strbuf → Option (ℤ × Strbuf)}
    (h : s.withRoom env n edit = some (rc, s')) (hrc : rc ≠ 0)
    (hz : s.blob ≠ none → s.blksz < n → strbufCapacity n ≠ 0)
    (hedit : ∀ s₁, edit s₁ = some (rc, s') → rc = 0) :
    s.Kept s' ∧ s.blksz < n ∧ env.granted s.requests = false := by
  obtain ⟨⟨rc₁, s₁⟩, hres, h⟩ := Option.bind_eq_some_iff.mp h
  dsimp only at h
  split_ifs at h with hrc₁
  · obtain ⟨-, rfl⟩ := Prod.mk.inj (Option.some.inj h)
    exact Strbuf.reserve_failed hres hrc₁ hz
  · exact absurd (hedit s₁ h) hrc

theorem Strbuf.withRoom_frees {edit : Strbuf → Option (ℤ × Strbuf)} (hb : s.blob ≠ none)
    (hn : s.blksz < n) (hz : strbufCapacity n = 0) : ∃ s',
      s.withRoom env n edit = some (-1, s') ∧ ¬ s.Kept s' := by
  refine ⟨{ s with blob := none, freed := true, requests := s.requests + 1 }, ?_, ?_⟩
  · unfold Strbuf.withRoom
    rw [Strbuf.reserve_frees hb hn hz]
    rfl
  · exact fun hk => hb (hk.block.mp rfl)

theorem Strbuf.code_bind {x : Option Strbuf} {f : Strbuf → Option (ℤ × Strbuf)}
    (h : x.bind f = some (rc, s')) (hf : ∀ s₁, f s₁ = some (rc, s') → rc = 0) : rc = 0 := by
  obtain ⟨s₁, -, h₁⟩ := Option.bind_eq_some_iff.mp h
  exact hf s₁ h₁

theorem Strbuf.code_zero (h : some ((0 : ℤ), s) = some (rc, s')) : rc = 0 :=
  (Prod.mk.inj (Option.some.inj h)).1.symm

/-! ## Single edits -/

theorem strbufSet_failed (hn : blob.length + 1023 < 2 ^ 64)
    (h : strbufSet env s blob = some (rc, s')) (hrc : rc ≠ 0) : s.Kept s' := by
  have hroom : s.withRoom env blob.length (fun s => (s.store 0 blob).bind fun s =>
      (s.terminate blob.length).bind fun s => some (0, s)) = some (rc, s') := h
  refine (Strbuf.withRoom_failed hroom hrc
    (fun _ hlt => strbufCapacity_ne_zero hn (by omega)) fun s₁ hedit => ?_).1
  exact Strbuf.code_bind hedit fun _ h₁ => Strbuf.code_bind h₁ fun _ => Strbuf.code_zero

theorem strbufAppend_failed (hn : s.size + blob.length + 1023 < 2 ^ 64)
    (h : strbufAppend env s blob = some (rc, s')) (hrc : rc ≠ 0) : s.Kept s' := by
  have hadd : add64 s.size blob.length = s.size + blob.length := add64_eq (by omega)
  have hroom : s.withRoom env (add64 s.size blob.length) (fun s₁ => (s₁.store s₁.size blob).bind
      fun s₂ => (s₂.terminate (add64 s.size blob.length)).bind fun s₃ => some (0, s₃)) =
      some (rc, s') := h
  rw [hadd] at hroom
  refine (Strbuf.withRoom_failed hroom hrc
    (fun _ hlt => strbufCapacity_ne_zero hn (by omega)) fun s₁ hedit => ?_).1
  exact Strbuf.code_bind hedit fun _ h₁ => Strbuf.code_bind h₁ fun _ => Strbuf.code_zero

/-- The end of `strbuf_prepend`. -/
def prependEdit (size : ℕ) (blob : List UInt8) (s : Strbuf) : Option (ℤ × Strbuf) :=
  (s.move blob.length 0 s.size).bind fun s => (s.store 0 blob).bind fun s =>
    (s.terminate size).bind fun s => some (0, s)

theorem prependEdit_code {size : ℕ} (h : prependEdit size blob s = some (rc, s')) : rc = 0 :=
  Strbuf.code_bind h fun _ h₁ => Strbuf.code_bind h₁ fun _ h₂ =>
    Strbuf.code_bind h₂ fun _ => Strbuf.code_zero

theorem strbufPrepend_failed (hn : s.size + blob.length + 1023 < 2 ^ 64)
    (h : strbufPrepend env s blob = some (rc, s')) (hrc : rc ≠ 0) : s.Kept s' := by
  have hadd : add64 s.size blob.length = s.size + blob.length := add64_eq (by omega)
  have hroom : s.withRoom env (add64 s.size blob.length)
      (prependEdit (add64 s.size blob.length) blob) = some (rc, s') := h
  rw [hadd] at hroom
  exact (Strbuf.withRoom_failed hroom hrc
    (fun _ hlt => strbufCapacity_ne_zero hn (by omega)) fun _ => prependEdit_code).1

/-- The room that `strbuf_insert` asks for. -/
def insertSize (size index n : ℕ) : ℕ :=
  if index > size then add64 (add64 size n) (index - size) else add64 size n

/-- The end of `strbuf_insert` behind the end of the string. -/
def insertBeyond (size index : ℕ) (blob : List UInt8) (s : Strbuf) : Option (ℤ × Strbuf) :=
  (s.store s.size (List.replicate (index - s.size) 32)).bind fun s =>
    (s.store index blob).bind fun s => (s.terminate size).bind fun s => some (0, s)

/-- The end of `strbuf_insert` within the string. -/
def insertEdit (size index : ℕ) (blob : List UInt8) (s : Strbuf) : Option (ℤ × Strbuf) :=
  (s.move (index + blob.length) index (s.size - index)).bind fun s =>
    (s.store index blob).bind fun s => (s.terminate size).bind fun s => some (0, s)

theorem insertBeyond_code {size : ℕ} (h : insertBeyond size index blob s = some (rc, s')) :
    rc = 0 :=
  Strbuf.code_bind h fun _ h₁ => Strbuf.code_bind h₁ fun _ h₂ =>
    Strbuf.code_bind h₂ fun _ => Strbuf.code_zero

theorem insertEdit_code {size : ℕ} (h : insertEdit size index blob s = some (rc, s')) : rc = 0 :=
  Strbuf.code_bind h fun _ h₁ => Strbuf.code_bind h₁ fun _ h₂ =>
    Strbuf.code_bind h₂ fun _ => Strbuf.code_zero

theorem strbufInsert_room : strbufInsert env s index blob =
    s.withRoom env (insertSize s.size index blob.length) fun s₁ =>
      if index > s₁.size then insertBeyond (insertSize s.size index blob.length) index blob s₁
      else insertEdit (insertSize s.size index blob.length) index blob s₁ := by
  unfold strbufInsert Strbuf.withRoom
  refine congrArg (Option.bind (s.reserve env (insertSize s.size index blob.length))) (funext ?_)
  rintro ⟨rc, s₁⟩
  by_cases hrc : rc = 0 <;> by_cases hgt : index > s₁.size <;>
    simp [hrc, hgt, insertBeyond, insertEdit, insertSize]

theorem insertSize_frees (h : StrbufString s) (hi : index < 2 ^ 64)
    (hn : s.blksz + blob.length + 1023 < 2 ^ 64) :
    (s.blksz < insertSize s.size index blob.length ∧
        strbufCapacity (insertSize s.size index blob.length) = 0) ↔
      index + blob.length < 2 ^ 64 ∧ 2 ^ 64 ≤ index + blob.length + 1023 := by
  have hsize := h.size
  have hcap : s.blksz < insertSize s.size index blob.length →
      (strbufCapacity (insertSize s.size index blob.length) = 0 ↔
        2 ^ 64 ≤ insertSize s.size index blob.length + 1023) := by
    intro hlt
    apply strbufCapacity_eq_zero (by omega)
    unfold insertSize add64
    split_ifs <;> omega
  rw [and_congr_right hcap]
  unfold insertSize add64
  split_ifs <;> omega

theorem strbufInsert_failed (h : StrbufString s) (hi : index < 2 ^ 64)
    (hn : s.blksz + blob.length + 1023 < 2 ^ 64) (hf : ¬ s.Frees (index + blob.length))
    (hrun : strbufInsert env s index blob = some (rc, s')) (hrc : rc ≠ 0) :
    s.Kept s' ∧ s.blksz < insertSize s.size index blob.length ∧
      env.granted s.requests = false := by
  rw [strbufInsert_room] at hrun
  refine Strbuf.withRoom_failed hrun hrc (fun hb hlt hz => ?_) fun s₁ hedit => ?_
  · exact hf ⟨hb, (insertSize_frees h hi hn).mp ⟨hlt, hz⟩⟩
  · split_ifs at hedit
    · exact insertBeyond_code hedit
    · exact insertEdit_code hedit

theorem strbufInsert_frees (h : StrbufString s) (hi : index < 2 ^ 64)
    (hn : s.blksz + blob.length + 1023 < 2 ^ 64) (hf : s.Frees (index + blob.length)) :
    ∃ s', strbufInsert env s index blob = some (-1, s') ∧ ¬ s.Kept s' := by
  obtain ⟨hlt, hz⟩ := (insertSize_frees h hi hn).mpr hf.2
  rw [strbufInsert_room]
  exact Strbuf.withRoom_frees hf.1 hlt hz

theorem strbufTruncate_failed (h : strbufTruncate s n = some (rc, s')) (hrc : rc ≠ 0) :
    s.Kept s' := by
  unfold strbufTruncate at h
  split_ifs at h
  · obtain ⟨-, rfl⟩ := Prod.mk.inj (Option.some.inj h)
    exact Strbuf.Kept.asked s _
  · exact absurd (Strbuf.code_bind h fun _ => Strbuf.code_zero) hrc

theorem strbufRemove_failed (h : strbufRemove s index n = some (rc, s')) (hrc : rc ≠ 0) :
    s.Kept s' := by
  unfold strbufRemove at h
  split_ifs at h
  · obtain ⟨-, rfl⟩ := Prod.mk.inj (Option.some.inj h)
    exact Strbuf.Kept.asked s _
  · exact absurd (Strbuf.code_bind h fun _ => Strbuf.code_zero) hrc
  · exact absurd (Strbuf.code_bind h fun _ h₁ => Strbuf.code_bind h₁ fun _ => Strbuf.code_zero) hrc

theorem strbufRtrim_code (h : strbufRtrim s = some (rc, s')) : rc = 0 := by
  unfold strbufRtrim at h
  obtain ⟨mem, -, h⟩ := Option.bind_eq_some_iff.mp h
  exact Strbuf.code_bind h fun _ => Strbuf.code_zero

theorem strbufLtrim_code (h : strbufLtrim s = some (rc, s')) : rc = 0 := by
  unfold strbufLtrim at h
  obtain ⟨mem, -, h⟩ := Option.bind_eq_some_iff.mp h
  dsimp only at h
  split_ifs at h
  · exact Strbuf.code_bind h fun _ h₁ => Strbuf.code_bind h₁ fun _ => Strbuf.code_zero
  · exact Strbuf.code_zero h

theorem strbufTrim_code (h : strbufTrim s = some (rc, s')) : rc = 0 := by
  unfold strbufTrim at h
  obtain ⟨⟨rc₁, s₁⟩, -, h⟩ := Option.bind_eq_some_iff.mp h
  obtain ⟨⟨rc₂, s₂⟩, -, h⟩ := Option.bind_eq_some_iff.mp h
  exact Strbuf.code_zero h

theorem strbufMmsqueeze_clean : StrbufCall.FailsClean env s (.outside .mmsqueeze) ↔
    StrbufCall.FailsFirst env s (.outside .mmsqueeze) := by
  unfold StrbufCall.FailsClean StrbufCall.run StrbufCall.FailsFirst strbufStep strbufMmsqueeze
  dsimp only
  constructor
  · intro hclean hb hz
    rw [hz, Strbuf.resize_zero hb] at hclean
    exact hb ((hclean _ _ rfl (by decide)).block.mp rfl)
  · intro hne rc s' h hrc
    unfold Strbuf.resize at h
    split_ifs at h with hfreed hzero
    · exact absurd hzero.2 (hne (Option.isSome_iff_ne_none.mp hzero.1))
    · exact absurd (Prod.mk.inj (Option.some.inj h)).1.symm hrc
    · obtain ⟨-, rfl⟩ := Prod.mk.inj (Option.some.inj h)
      exact Strbuf.Kept.asked s _

theorem strbufMmreserve_clean (hw : n < 2 ^ 64) (hblk : s.blksz + 1023 < 2 ^ 64) :
    StrbufCall.FailsClean env s (.outside (.mmreserve n)) ↔
      StrbufCall.FailsFirst env s (.outside (.mmreserve n)) := by
  unfold StrbufCall.FailsClean StrbufCall.run StrbufCall.FailsFirst strbufStep strbufMmreserve
  dsimp only
  constructor
  · rintro hclean ⟨hb, -, hwrap⟩
    have hz := (strbufCapacity_eq_zero (by omega) hw).mpr hwrap
    have hfrees : s.reserve env n =
        some (-1, { s with blob := none, freed := true, requests := s.requests + 1 }) :=
      Strbuf.reserve_frees hb (show s.blksz < n by omega) hz
    exact hb ((hclean _ _ hfrees (by decide)).block.mp rfl)
  · intro hf rc s' hrun hrc
    refine (Strbuf.reserve_failed hrun hrc fun hb hlt hz => ?_).1
    exact hf ⟨hb, hw, (strbufCapacity_eq_zero (by omega) hw).mp hz⟩

/-! ## Edits that copy their source first -/

theorem Strbuf.withCopy_cases (env : Allocator) (hf : s.blob = none → s.freed = false)
    (hn : n + 1023 < 2 ^ 64) (edit : Strbuf → Option (ℤ × Strbuf)) :
    ((∃ s₁, s.withRoom env n (Strbuf.withCopy env edit) = edit s₁) ∧
        env.granted s.requests = true ∧
          (s.blksz < n → env.granted (s.requests + 1) = true)) ∨
      ((∃ s', s.withRoom env n (Strbuf.withCopy env edit) = some (-1, s') ∧ s.Kept s') ∧
        env.granted s.requests = false) ∨
      ((∃ s', s.withRoom env n (Strbuf.withCopy env edit) = some (-1, s') ∧ s'.size = s.size ∧
          s'.blksz = strbufCapacity n) ∧
        s.blksz < n ∧ env.granted s.requests = true ∧ env.granted (s.requests + 1) = false) := by
  by_cases hlt : s.blksz < n
  · have hz : strbufCapacity n ≠ 0 := strbufCapacity_ne_zero hn (by omega)
    cases hg : env.granted s.requests with
    | false =>
        right; left
        refine ⟨⟨_, ?_, Strbuf.Kept.asked s (s.requests + 1)⟩, rfl⟩
        simp [Strbuf.withRoom, Strbuf.reserve_refused hf (fun _ => hz) hlt hg]
    | true =>
        obtain ⟨s₁, hres, hblk, hsize, hreq⟩ :=
          Strbuf.reserve_granted hf (fun _ => hz) hlt hg
        cases hg₁ : env.granted (s.requests + 1) with
        | false =>
            right; right
            refine ⟨⟨{ s₁ with requests := s₁.requests + 1 }, ?_, hsize, hblk⟩, hlt, rfl, rfl⟩
            simp [Strbuf.withRoom, hres, Strbuf.withCopy, Strbuf.duplicate, hreq, hg₁]
        | true =>
            left
            refine ⟨⟨{ s₁ with requests := s₁.requests + 1 }, ?_⟩, rfl, fun _ => rfl⟩
            simp [Strbuf.withRoom, hres, Strbuf.withCopy, Strbuf.duplicate, hreq, hg₁]
  · have hres : s.reserve env n = some (0, s) := Strbuf.reserve_fits (not_lt.mp hlt)
    cases hg : env.granted s.requests with
    | false =>
        right; left
        refine ⟨⟨_, ?_, Strbuf.Kept.asked s (s.requests + 1)⟩, rfl⟩
        simp [Strbuf.withRoom, hres, Strbuf.withCopy, Strbuf.duplicate, hg]
    | true =>
        left
        refine ⟨⟨{ s with requests := s.requests + 1 }, ?_⟩, rfl, fun hc => absurd hc hlt⟩
        simp [Strbuf.withRoom, hres, Strbuf.withCopy, Strbuf.duplicate, hg]

theorem Strbuf.withCopy_clean {edit : Strbuf → Option (ℤ × Strbuf)}
    (hf : s.blob = none → s.freed = false)
    (hedit : ∀ s₁ rc s', edit s₁ = some (rc, s') → rc = 0) (hn : n + 1023 < 2 ^ 64) :
    (∀ rc s', s.withRoom env n (Strbuf.withCopy env edit) = some (rc, s') → rc ≠ 0 → s.Kept s') ↔
      (s.blksz < n → env.granted s.requests = true → env.granted (s.requests + 1) = true) := by
  rcases Strbuf.withCopy_cases env hf hn edit with ⟨⟨s₁, h⟩, -, hg⟩ | ⟨⟨s₁, h, hk⟩, hg⟩ |
    ⟨⟨s₁, h, -, hblk⟩, hlt, hg, hg₁⟩
  · refine ⟨fun _ hlt _ => hg hlt, fun _ rc s' hrun hrc => ?_⟩
    exact absurd (hedit s₁ rc s' (h ▸ hrun)) hrc
  · refine ⟨fun _ _ hc => absurd hc (by rw [hg]; exact Bool.false_ne_true), ?_⟩
    intro _ rc s' hrun _
    obtain ⟨-, rfl⟩ := Prod.mk.inj (Option.some.inj (h.symm.trans hrun))
    exact hk
  · constructor
    · intro hclean
      have hsame := (hclean (-1) s₁ h (by decide)).blksz
      have hge := (strbufCapacity_ge hn).1
      omega
    · intro hc
      rw [hc hlt hg] at hg₁
      cases hg₁

theorem strbufPrependInside_clean (hf : s.blob = none → s.freed = false)
    (hn : s.size + blob.length + 1023 < 2 ^ 64) :
    StrbufCall.FailsClean env s (.prependInside blob) ↔
      StrbufCall.FailsFirst env s (.prependInside blob) := by
  have hadd : add64 s.size blob.length = s.size + blob.length := add64_eq (by omega)
  have hcall : strbufPrependInside env s blob = s.withRoom env (s.size + blob.length)
      (Strbuf.withCopy env (prependEdit (s.size + blob.length) blob)) := by
    unfold strbufPrependInside
    rw [hadd]
    rfl
  unfold StrbufCall.FailsClean StrbufCall.run StrbufCall.FailsFirst
  dsimp only
  rw [hcall]
  exact Strbuf.withCopy_clean hf (fun _ _ _ => prependEdit_code) hn

theorem Strbuf.withRoom_congr {edit edit' : Strbuf → Option (ℤ × Strbuf)}
    (h : ∀ s₁, s₁.size = s.size → edit s₁ = edit' s₁) :
    s.withRoom env n edit = s.withRoom env n edit' := by
  unfold Strbuf.withRoom
  cases hres : s.reserve env n with
  | none => rfl
  | some r =>
      have hsize : r.2.size = s.size := Strbuf.reserve_size hres
      rw [Option.bind_some, Option.bind_some, h r.2 hsize]

theorem strbufInsertInside_room : strbufInsertInside env s index blob =
    s.withRoom env (insertSize s.size index blob.length) fun s₁ =>
      if index > s₁.size then insertBeyond (insertSize s.size index blob.length) index blob s₁
      else Strbuf.withCopy env (insertEdit (insertSize s.size index blob.length) index blob) s₁ :=
  rfl

theorem strbufInsertInside_within (hi : index ≤ s.size) : strbufInsertInside env s index blob =
    s.withRoom env (add64 s.size blob.length)
      (Strbuf.withCopy env (insertEdit (add64 s.size blob.length) index blob)) := by
  have hsize : insertSize s.size index blob.length = add64 s.size blob.length :=
    if_neg (by omega)
  rw [strbufInsertInside_room, hsize]
  exact Strbuf.withRoom_congr fun s₁ hs₁ => if_neg (by omega)

theorem strbufInsertInside_beyond (hi : s.size < index) : strbufInsertInside env s index blob =
    s.withRoom env (insertSize s.size index blob.length)
      (insertBeyond (insertSize s.size index blob.length) index blob) := by
  rw [strbufInsertInside_room]
  exact Strbuf.withRoom_congr fun s₁ hs₁ => if_pos (by omega)

theorem strbufInsertInside_clean (h : StrbufString s) (hi : index < 2 ^ 64)
    (hn : s.blksz + blob.length + 1023 < 2 ^ 64) :
    StrbufCall.FailsClean env s (.insertInside index blob) ↔
      StrbufCall.FailsFirst env s (.insertInside index blob) := by
  have hsize := h.size
  unfold StrbufCall.FailsClean StrbufCall.run StrbufCall.FailsFirst
  dsimp only
  by_cases hle : index ≤ s.size
  · have hadd : add64 s.size blob.length = s.size + blob.length := add64_eq (by omega)
    have hfits : ¬ s.Frees (index + blob.length) := fun hc => by
      have hwrap := hc.2.2
      omega
    rw [strbufInsertInside_within hle, hadd, and_iff_right hfits, forall_prop_of_true hle]
    exact Strbuf.withCopy_clean h.held (fun _ _ _ => insertEdit_code) (by omega)
  · rw [strbufInsertInside_beyond (not_le.mp hle), and_iff_left fun hc => absurd hc hle]
    constructor
    · intro hclean hf
      obtain ⟨hlt, hz⟩ := (insertSize_frees h hi hn).mpr hf.2
      obtain ⟨s', hrun, hlost⟩ := Strbuf.withRoom_frees hf.1 hlt hz
      exact hlost (hclean (-1) s' hrun (by decide))
    · intro hf rc s' hrun hrc
      refine (Strbuf.withRoom_failed hrun hrc (fun hb hlt hz => ?_) fun _ => insertBeyond_code).1
      exact hf ⟨hb, (insertSize_frees h hi hn).mp ⟨hlt, hz⟩⟩

/-! ## Replacing -/

theorem strbufRemove_nothing (h : ¬ (index < s.size ∧ blob ≠ [])) :
    strbufRemove s index blob.length = some (-1, s) := by
  apply if_pos
  by_contra hc
  rw [not_or, List.length_eq_zero_iff] at hc
  exact h ⟨by omega, hc.2⟩

theorem strbufRemove_something (h : StrbufString s) (hi : index < s.size) (hb : blob ≠ [])
    (hn : s.blksz + blob.length < 2 ^ 64) : ∃ mem',
      strbufRemove s index blob.length = some (0, { s with
        blob := some mem', size := removedSize s.size index blob.length }) ∧
      index ≤ removedSize s.size index blob.length ∧
      removedSize s.size index blob.length < s.size ∧
      (s.blksz < removedSize s.size index blob.length + blob.length ↔
        s.blksz < index + blob.length) := by
  have hsize := h.size
  have hlen : blob.length ≠ 0 := fun hc => hb (List.length_eq_zero_iff.mp hc)
  have hbad : ¬ (index ≥ s.size ∨ blob.length = 0) := by
    rintro (hc | hc)
    · omega
    · exact hlen hc
  have hmem : s.blob ≠ none := fun hc => by
    have hzero := h.null hc
    omega
  obtain ⟨mem, hm⟩ := Option.ne_none_iff_exists'.mp hmem
  refine ⟨_, strbufRemove_eq hm hsize hi hlen (by omega), ?_⟩
  unfold removedSize
  rw [if_neg hbad]
  split_ifs <;> omega

theorem strbufReplace_slow_clean {s₁ : Strbuf} {rc₁ : ℤ} {size : ℕ}
    (hslow : ¬ (size = blob.length ∧ add64 index blob.length ≤ s.size))
    (hrem : strbufRemove s index blob.length = some (rc₁, s₁)) :
    StrbufCall.FailsClean env s (.outside (.replace index size blob)) ↔
      ∀ rc s', strbufInsert env s₁ index blob = some (rc, s') → rc ≠ 0 → s.Kept s' := by
  unfold StrbufCall.FailsClean StrbufCall.run strbufStep strbufReplace
  dsimp only
  rw [if_neg hslow, hrem]
  constructor
  · intro hclean rc s' hins hrc
    exact hclean (-3) s' (by simp [hins, hrc]) (by decide)
  · intro hclean rc s' hrun hrc
    obtain ⟨-, ⟨⟩, hrun⟩ := Option.bind_eq_some_iff.mp hrun
    obtain ⟨⟨rc₂, s₂⟩, hins, hrun⟩ := Option.bind_eq_some_iff.mp hrun
    obtain ⟨hcode, rfl⟩ := Prod.mk.inj (Option.some.inj hrun)
    have hrc₂ : rc₂ ≠ 0 := fun hc => hrc (by simpa [hc] using hcode.symm)
    exact hclean rc₂ s₂ hins hrc₂

theorem strbufReplace_fast_clean {size : ℕ}
    (hfast : size = blob.length ∧ add64 index blob.length ≤ s.size) :
    StrbufCall.FailsClean env s (.outside (.replace index size blob)) := by
  intro rc s' hrun hrc
  unfold StrbufCall.run strbufStep strbufReplace at hrun
  dsimp only at hrun
  rw [if_pos hfast] at hrun
  exact absurd (Strbuf.code_bind hrun fun _ => Strbuf.code_zero) hrc

theorem not_frees_of_fast (h : StrbufString s) (hn : s.blksz + blob.length + 1023 < 2 ^ 64)
    (hfast : add64 index blob.length ≤ s.size) : ¬ s.Frees (index + blob.length) := by
  rintro ⟨-, hlt, hwrap⟩
  have hsize := h.size
  rw [add64_eq hlt] at hfast
  omega

theorem strbufInsert_refused (h : StrbufString s) (hi : index ≤ s.size)
    (hn : s.size + blob.length + 1023 < 2 ^ 64) (hgrow : s.blksz < s.size + blob.length)
    (hg : env.granted s.requests = false) :
    strbufInsert env s index blob = some (-1, { s with requests := s.requests + 1 }) := by
  have hroom : insertSize s.size index blob.length = s.size + blob.length := by
    unfold insertSize
    rw [if_neg (by omega), add64_eq (by omega)]
  have hz : strbufCapacity (s.size + blob.length) ≠ 0 := strbufCapacity_ne_zero hn (by omega)
  rw [strbufInsert_room, hroom]
  unfold Strbuf.withRoom
  rw [Strbuf.reserve_refused h.held (fun _ => hz) hgrow hg]
  rfl

theorem strbufReplace_clean {size : ℕ} (h : StrbufString s) (hw : index < 2 ^ 64)
    (hn : s.blksz + blob.length + 1023 < 2 ^ 64) :
    StrbufCall.FailsClean env s (.outside (.replace index size blob)) ↔
      StrbufCall.FailsFirst env s (.outside (.replace index size blob)) := by
  have hsize := h.size
  by_cases hfast : size = blob.length ∧ add64 index blob.length ≤ s.size
  · have hfits := not_frees_of_fast h hn hfast.2
    refine iff_of_true (strbufReplace_fast_clean hfast) ⟨hfits, fun hi _ hgrow => ?_⟩
    rw [add64_eq (by omega)] at hfast
    omega
  · by_cases hin : index < s.size ∧ blob ≠ []
    · obtain ⟨mem', hrem, hle, hlt, hiff⟩ := strbufRemove_something h hin.1 hin.2 (by omega)
      generalize hr : removedSize s.size index blob.length = r at hrem hle hlt hiff
      have hs : StrbufString { s with blob := some mem', size := r } :=
        ⟨hlt.le.trans hsize, fun hc => (nomatch hc), fun hc => (nomatch hc)⟩
      have hfits : ∀ t : Strbuf, ¬ t.Frees (index + blob.length) := fun t hc => by
        have hwrap := hc.2.2
        omega
      rw [strbufReplace_slow_clean hfast hrem]
      constructor
      · refine fun hclean => ⟨hfits s, fun _ _ hgrow => ?_⟩
        by_contra hg
        have hrun := strbufInsert_refused hs hle
          (show r + blob.length + 1023 < 2 ^ 64 by omega) (hiff.mpr hgrow) (Bool.eq_false_iff.mpr hg)
        have hsame : r = s.size := (hclean (-1) _ hrun (by decide)).size
        omega
      · rintro ⟨-, hgrant⟩ rc s' hrun hrc
        obtain ⟨-, hgrow, hg⟩ := strbufInsert_failed hs hw hn (hfits _) hrun hrc
        have hroom : insertSize r index blob.length = r + blob.length := by
          unfold insertSize
          rw [if_neg (by omega), add64_eq (by omega)]
        have hgrow' : s.blksz < index + blob.length := hiff.mp (hroom ▸ hgrow)
        exact absurd (hgrant hin.1 hin.2 hgrow') (Bool.eq_false_iff.mp hg)
    · rw [strbufReplace_slow_clean hfast (strbufRemove_nothing hin)]
      have hnone : index < s.size → blob ≠ [] → s.blksz < index + blob.length →
          env.granted s.requests = true := fun hi hb => absurd ⟨hi, hb⟩ hin
      constructor
      · refine fun hclean => ⟨fun hf => ?_, hnone⟩
        obtain ⟨s', hrun, hlost⟩ := strbufInsert_frees h hw hn hf
        exact hlost (hclean (-1) s' hrun (by decide))
      · intro hf rc s' hrun hrc
        exact (strbufInsert_failed h hw hn hf.1 hrun hrc).1

theorem strbufReplaceInside_slow {s₁ : Strbuf} {rc₁ : ℤ} {size : ℕ}
    (hslow : ¬ (size = blob.length ∧ add64 index blob.length ≤ s.size))
    (hrem : strbufRemove s index blob.length = some (rc₁, s₁)) :
    StrbufCall.FailsClean env s (.replaceInside index size blob) ↔
      ∀ rc s', strbufInsertInside env s₁ index blob = some (rc, s') → rc ≠ 0 → s.Kept s' := by
  unfold StrbufCall.FailsClean StrbufCall.run strbufReplaceInside
  dsimp only
  rw [if_neg hslow, hrem]
  constructor
  · intro hclean rc s' hins hrc
    exact hclean (-3) s' (by simp [hins, hrc]) (by decide)
  · intro hclean rc s' hrun hrc
    obtain ⟨-, ⟨⟩, hrun⟩ := Option.bind_eq_some_iff.mp hrun
    obtain ⟨⟨rc₂, s₂⟩, hins, hrun⟩ := Option.bind_eq_some_iff.mp hrun
    obtain ⟨hcode, rfl⟩ := Prod.mk.inj (Option.some.inj hrun)
    have hrc₂ : rc₂ ≠ 0 := fun hc => hrc (by simpa [hc] using hcode.symm)
    exact hclean rc₂ s₂ hins hrc₂

theorem strbufReplaceInside_fast {size : ℕ}
    (hfast : size = blob.length ∧ add64 index blob.length ≤ s.size) :
    StrbufCall.FailsClean env s (.replaceInside index size blob) := by
  intro rc s' hrun hrc
  unfold StrbufCall.run strbufReplaceInside at hrun
  dsimp only at hrun
  rw [if_pos hfast] at hrun
  exact absurd (Strbuf.code_bind hrun fun _ => Strbuf.code_zero) hrc

theorem strbufReplaceInside_clean {size : ℕ} (h : StrbufString s) (hw : index < 2 ^ 64)
    (hn : s.blksz + blob.length + 1023 < 2 ^ 64) :
    StrbufCall.FailsClean env s (.replaceInside index size blob) ↔
      StrbufCall.FailsFirst env s (.replaceInside index size blob) := by
  have hsize := h.size
  by_cases hfast : size = blob.length ∧ add64 index blob.length ≤ s.size
  · refine iff_of_true (strbufReplaceInside_fast hfast)
      ⟨not_frees_of_fast h hn hfast.2, ?_⟩
    by_cases hi : index ≤ s.size
    · rw [add64_eq (by omega)] at hfast
      exact Or.inl hfast
    · right
      rw [if_neg fun hc => hi hc.1.le]
      exact fun hc => absurd hc hi
  · by_cases hin : index < s.size ∧ blob ≠ []
    · obtain ⟨mem', hrem, hle, hlt, hiff⟩ := strbufRemove_something h hin.1 hin.2 (by omega)
      generalize hr : removedSize s.size index blob.length = r at hrem hle hlt hiff
      have hslow : ¬ (size = blob.length ∧ index + blob.length ≤ s.size) := by
        rwa [add64_eq (by omega)] at hfast
      have hadd : add64 r blob.length = r + blob.length := add64_eq (by omega)
      have hfits : ¬ s.Frees (index + blob.length) := fun hc => by
        have hwrap := hc.2.2
        omega
      rw [strbufReplaceInside_slow hfast hrem,
        strbufInsertInside_within (s := { s with blob := some mem', size := r }) hle]
      unfold StrbufCall.FailsFirst
      dsimp only
      rw [and_iff_right hfits, or_iff_right hslow, if_pos hin, hadd, ← hiff]
      rcases Strbuf.withCopy_cases (s := { s with blob := some mem', size := r }) env
        (fun hc => (nomatch hc)) (show r + blob.length + 1023 < 2 ^ 64 by omega)
        (insertEdit (r + blob.length) index blob) with ⟨⟨s₁, hrun⟩, hg, hg₁⟩ |
        ⟨⟨s₁, hrun, hk⟩, hg⟩ | ⟨⟨s₁, hrun, hk, -⟩, hgrow, hg, hg₁⟩
      · refine iff_of_true (fun rc s' hc hrc => ?_) ⟨hg, hg₁⟩
        exact absurd (insertEdit_code (hrun ▸ hc)) hrc
      · refine iff_of_false (fun hclean => ?_) fun hc => ?_
        · have hsame : s₁.size = s.size := (hclean (-1) s₁ hrun (by decide)).size
          rw [hk.size] at hsame
          exact absurd hsame hlt.ne
        · exact Bool.false_ne_true (hg.symm.trans hc.1)
      · refine iff_of_false (fun hclean => ?_) fun hc => ?_
        · have hsame : s₁.size = s.size := (hclean (-1) s₁ hrun (by decide)).size
          rw [hk] at hsame
          exact absurd hsame hlt.ne
        · exact Bool.false_ne_true (hg₁.symm.trans (hc.2 hgrow))
    · rw [strbufReplaceInside_slow hfast (strbufRemove_nothing hin)]
      have hslow : ¬ (size = blob.length ∧ index + blob.length ≤ s.size) := fun hc =>
        hfast ⟨hc.1, by rw [add64_eq (by omega)]; exact hc.2⟩
      have hins : StrbufCall.FailsClean env s (.insertInside index blob) ↔ _ :=
        strbufInsertInside_clean h hw hn
      apply hins.trans
      unfold StrbufCall.FailsFirst
      dsimp only
      rw [or_iff_right hslow, if_neg hin]

/-! ## All calls -/

/-- A call fails clean exactly if the block is not freed and nothing is refused behind its first
change. -/
theorem strbufCall_clean {call : StrbufCall} (h : StrbufString s) (hw : call.number < 2 ^ 64)
    (hn : s.blksz + call.source.length + 1023 < 2 ^ 64) :
    call.FailsClean env s ↔ call.FailsFirst env s := by
  have hsize := h.size
  cases call with
  | prependInside blob =>
      have hn' : s.blksz + blob.length + 1023 < 2 ^ 64 := hn
      exact strbufPrependInside_clean h.held (by omega)
  | insertInside index blob => exact strbufInsertInside_clean h hw hn
  | replaceInside index size blob => exact strbufReplaceInside_clean h hw hn
  | outside op =>
      cases op with
      | replace index size blob => exact strbufReplace_clean h hw hn
      | set blob =>
          have hn' : s.blksz + blob.length + 1023 < 2 ^ 64 := hn
          exact iff_of_true (fun _ _ => strbufSet_failed (by omega)) trivial
      | append blob =>
          have hn' : s.blksz + blob.length + 1023 < 2 ^ 64 := hn
          exact iff_of_true (fun _ _ => strbufAppend_failed (by omega)) trivial
      | prepend blob =>
          have hn' : s.blksz + blob.length + 1023 < 2 ^ 64 := hn
          exact iff_of_true (fun _ _ => strbufPrepend_failed (by omega)) trivial
      | insert index blob =>
          constructor
          · intro hclean hf
            obtain ⟨s', hrun, hlost⟩ := strbufInsert_frees h hw hn hf
            exact hlost (hclean (-1) s' hrun (by decide))
          · intro hf rc s' hrun hrc
            exact (strbufInsert_failed h hw hn hf hrun hrc).1
      | truncate n => exact iff_of_true (fun _ _ => strbufTruncate_failed) trivial
      | remove index n => exact iff_of_true (fun _ _ => strbufRemove_failed) trivial
      | ltrim => exact iff_of_true (fun _ _ hrun hrc => absurd (strbufLtrim_code hrun) hrc) trivial
      | rtrim => exact iff_of_true (fun _ _ hrun hrc => absurd (strbufRtrim_code hrun) hrc) trivial
      | trim => exact iff_of_true (fun _ _ hrun hrc => absurd (strbufTrim_code hrun) hrc) trivial
      | mmreserve n =>
          have hn' : s.blksz + 0 + 1023 < 2 ^ 64 := hn
          exact strbufMmreserve_clean hw (by omega)
      | mmsqueeze => exact strbufMmsqueeze_clean

/-- An insertion behind the end, a replacement and a reservation. -/
theorem strbufCall_clean_three :
    StrbufCall.FailsClean ⟨fun _ => false, fun _ _ => 0⟩ strbufAbc
      (.outside (.insert 5 [120, 121, 122, 120, 121, 122])) ∧
    StrbufCall.FailsClean ⟨fun _ => true, fun _ _ => 0⟩ strbufAbc
      (.replaceInside 1 2 (List.replicate 10 120)) ∧
    StrbufCall.FailsClean ⟨fun _ => false, fun _ _ => 0⟩ strbufAbc (.outside (.mmreserve 4096)) := by
  refine ⟨(strbufCall_clean strbufAbc_string (by decide) (by decide)).mpr fun hc => ?_,
    (strbufCall_clean strbufAbc_string (by decide) (by decide)).mpr ⟨fun hc => ?_, ?_⟩,
    (strbufCall_clean strbufAbc_string (by decide) (by decide)).mpr fun hc => ?_⟩
  · exact absurd hc.2.2 (by decide)
  · exact absurd hc.2.2 (by decide)
  · exact Or.inr ⟨rfl, fun _ => rfl⟩
  · exact absurd hc.2.2 (by decide)

/-- The characters behind `a` are gone although the replacement was refused, and a reservation of
the largest size frees the block. -/
theorem strbufCall_fails_dirty :
    ¬ StrbufCall.FailsClean ⟨fun _ => false, fun _ _ => 0⟩ strbufAbc
      (.outside (.replace 1 2 (List.replicate 10 120))) ∧
    (∃ s', strbufReplace ⟨fun _ => false, fun _ _ => 0⟩ strbufAbc 1 2 (List.replicate 10 120) =
      some (-3, s') ∧ s'.contents = [97]) ∧
    ¬ StrbufCall.FailsClean ⟨fun _ => true, fun _ _ => 0⟩ strbufAbc
      (.outside (.mmreserve (2 ^ 64 - 1))) := by
  have hrun : ∃ s', strbufReplace ⟨fun _ => false, fun _ _ => 0⟩ strbufAbc 1 2
      (List.replicate 10 120) = some (-3, s') ∧ s'.contents = [97] := ⟨_, rfl, by decide⟩
  have hfrees : strbufMmreserve ⟨fun _ => true, fun _ _ => 0⟩ strbufAbc (2 ^ 64 - 1) =
      some (-1, { strbufAbc with blob := none, freed := true, requests := 2 }) := rfl
  refine ⟨fun hclean => ?_, hrun, fun hclean => ?_⟩
  · obtain ⟨s', hrun, hs'⟩ := hrun
    have hkept := (hclean (-3) s' hrun (by decide)).contents
    rw [hs'] at hkept
    exact absurd hkept (by decide)
  · have hblock := (hclean (-1) _ hfrees (by decide)).block.mp rfl
    cases hblock

end Carthage
