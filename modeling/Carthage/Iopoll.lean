import Mathlib.Logic.Function.Basic
import Mathlib.Tactic

/-!
# Polling descriptors

`iopoll.c` over `select`: the set of the descriptors that are watched, and the loop that calls the
handlers of those that are ready. A handler may change the set while the loop goes through it.
-/

namespace Carthage

/-- `FD_SETSIZE`. -/
def fdSetSize : ℤ := 1024

abbrev FdSet := ℤ → Bool

/-- `FD_SET` and `FD_CLR`; a descriptor that a set has no room for may not be passed. -/
def fdAssign (fds : FdSet) (fd : ℤ) (watched : Bool) : Option FdSet :=
  if 0 ≤ fd ∧ fd < fdSetSize then some (Function.update fds fd watched) else none

/-- `FD_ISSET`. -/
def fdIsset (fds : FdSet) (fd : ℤ) : Option Bool :=
  if 0 ≤ fd ∧ fd < fdSetSize then some (fds fd) else none

structure IopollSelect where
  fds : FdSet
  fdmax : ℤ

namespace IopollSelect

/-- `__iopoll_select_alloc`. -/
def alloc : IopollSelect := ⟨fun _ => false, 0⟩

def add (io : IopollSelect) (fd : ℤ) : Option IopollSelect := do
  let fds ← fdAssign io.fds fd true
  return ⟨fds, if fd > io.fdmax then fd else io.fdmax⟩

def remove (io : IopollSelect) (fd : ℤ) : Option IopollSelect := do
  let fds ← fdAssign io.fds fd false
  return ⟨fds, if fd = io.fdmax then io.fdmax - 1 else io.fdmax⟩

end IopollSelect

/-- `iopoll_t` over a state that holds the watched set; a handler may change all of it, and
`select` takes the two sets that are not NULL and a timeout in microseconds. -/
structure Iopoll (S : Type) where
  readF : Option (S → ℤ → Option (ℤ × S))
  writeF : Option (S → ℤ → Option (ℤ × S))
  isLooping : S → Bool
  timeout : ℕ
  backend : S → IopollSelect
  select : S → ℤ → Option FdSet → Option FdSet → Option ℕ → ℤ × FdSet × FdSet × S

/-- The timeout that `iopoll_alloc` keeps, an unsigned number of 32 bits. -/
def iopollTimeout (timeout : ℤ) : ℕ := if timeout ≤ 0 then 2 ^ 32 - 1 else timeout.toNat

namespace Iopoll

variable {S : Type} (p : Iopoll S)

/-- The handler is called when the bit of the descriptor is set. -/
def serve (f : Option (S → ℤ → Option (ℤ × S))) (fds : FdSet) (x : ℤ) (s : S) : Option S := do
  if ← fdIsset fds x then
    let f ← f
    let (_, s) ← f s x
    return s
  else return s

/-- The `for` loop of `__iopoll_select`. -/
def visit (rfds wfds : FdSet) : ℕ → ℤ → S → Option S
  | 0, _, _ => none
  | fuel + 1, x, s =>
      if x ≤ (p.backend s).fdmax ∧ p.isLooping s then do
        let s ← serve p.readF rfds x s
        let s ← serve p.writeF wfds x s
        visit rfds wfds fuel (x + 1) s
      else some s

/-- The `while` loop of `__iopoll_select`, for at most `n` rounds; there is no result when it is
still going then. -/
def loop : ℕ → FdSet → FdSet → S → Option (Option ℤ × S)
  | 0, _, _, s => some (none, s)
  | n + 1, rfds, wfds, s =>
      if p.isLooping s then do
        let rfds := if p.readF.isSome then (p.backend s).fds else rfds
        let wfds := if p.writeF.isSome then (p.backend s).fds else wfds
        let reading := p.writeF.isNone || p.readF.isSome
        let ptimeout := if p.timeout < 1 then some (p.timeout * 10) else none
        let (x, rfds', wfds', s) := p.select s ((p.backend s).fdmax + 1)
          (if reading then some rfds else none) (if p.writeF.isSome then some wfds else none)
          ptimeout
        let rfds := if reading then rfds' else rfds
        let wfds := if p.writeF.isSome then wfds' else wfds
        if x = 0 then return (some 1, s)
        else if x < 0 then return (some (-1), s)
        else do
          let s ← p.visit rfds wfds (fdSetSize.toNat + 1) 0 s
          loop n rfds wfds s
      else some (some 0, s)

end Iopoll

/-! ## The watched set -/

/-- A set that `select` can be asked about: it is not larger than the number that is passed. -/
structure IopollSelect.Covers (io : IopollSelect) : Prop where
  lower : -1 ≤ io.fdmax
  upper : io.fdmax < fdSetSize
  watched : ∀ x, io.fds x = true → 0 ≤ x ∧ x ≤ io.fdmax

namespace IopollSelect

variable {io io' : IopollSelect} {fd : ℤ}

theorem covers_alloc : alloc.Covers := ⟨by decide, by decide, fun x hx => (nomatch hx)⟩

theorem Covers.add (h : io.Covers) (hfd : 0 ≤ fd) (hfd' : fd < fdSetSize) :
    ∃ io', io.add fd = some io' ∧ io'.Covers ∧ io'.fds = Function.update io.fds fd true := by
  obtain ⟨hlower, hupper, hwatched⟩ := h
  unfold IopollSelect.add fdAssign
  rw [if_pos ⟨hfd, hfd'⟩]
  refine ⟨_, rfl, ⟨?_, ?_, fun x hx => ?_⟩, rfl⟩
  · dsimp only
    split_ifs <;> omega
  · dsimp only
    split_ifs <;> omega
  · dsimp only at hx ⊢
    by_cases hxfd : x = fd
    · subst hxfd
      split_ifs <;> omega
    · rw [Function.update_of_ne hxfd] at hx
      have := hwatched x hx
      split_ifs <;> omega

theorem Covers.remove (h : io.Covers) (hfd : io.fds fd = true) :
    ∃ io', io.remove fd = some io' ∧ io'.Covers ∧ io'.fds = Function.update io.fds fd false := by
  obtain ⟨hlower, hupper, hwatched⟩ := h
  obtain ⟨hzero, hmax⟩ := hwatched fd hfd
  unfold IopollSelect.remove fdAssign
  rw [if_pos ⟨hzero, hmax.trans_lt hupper⟩]
  refine ⟨_, rfl, ⟨?_, ?_, fun x hx => ?_⟩, rfl⟩
  · dsimp only
    split_ifs <;> omega
  · dsimp only
    split_ifs <;> omega
  · dsimp only at hx ⊢
    by_cases hxfd : x = fd
    · subst hxfd
      rw [Function.update_self] at hx
      cases hx
    · rw [Function.update_of_ne hxfd] at hx
      have := hwatched x hx
      split_ifs <;> omega

end IopollSelect

namespace Iopoll

variable {S : Type} {p : Iopoll S} {rfds wfds : FdSet}

theorem visit_rule (Inv : ℤ → S → Prop)
    (hcovers : ∀ x s, Inv x s → (p.backend s).fdmax < fdSetSize)
    (hstep : ∀ x s, 0 ≤ x → x ≤ (p.backend s).fdmax → Inv x s →
      ∃ s₁ s₂, serve p.readF rfds x s = some s₁ ∧ serve p.writeF wfds x s₁ = some s₂ ∧
        Inv (x + 1) s₂)
    {fuel : ℕ} {x : ℤ} {s : S} (hx : 0 ≤ x) (hfuel : fdSetSize - x < fuel) (hfuel' : 0 < fuel)
    (h : Inv x s) :
    ∃ y s', p.visit rfds wfds fuel x s = some s' ∧ Inv y s' ∧
      ((p.backend s').fdmax < y ∨ p.isLooping s' = false) := by
  induction fuel generalizing x s with
  | zero => omega
  | succ fuel ih =>
      unfold visit
      by_cases hcond : x ≤ (p.backend s).fdmax ∧ p.isLooping s
      · rw [if_pos hcond]
        obtain ⟨s₁, s₂, hread, hwrite, hinv⟩ := hstep x s hx hcond.1 h
        have hupper := hcovers x s h
        simp only [hread, hwrite, Option.bind_eq_bind, Option.bind_some]
        exact ih (by omega) (by omega) (by omega) hinv
      · rw [if_neg hcond]
        refine ⟨x, s, rfl, h, ?_⟩
        rw [not_and_or, not_le, Bool.not_eq_true] at hcond
        exact hcond

end Iopoll

end Carthage
