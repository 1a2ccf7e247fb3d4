import Mathlib.Data.List.Flatten
import Mathlib.Data.List.Nodup
import Mathlib.Data.Nat.Init
import Mathlib.Tactic.Common

/-!
# Forests that grow from a root

Children are lists, and each known element has a level that is one below that of its parent. The
root and what is linked below it stay a tree, in which each element is met once.
-/

namespace Carthage

variable {α : Type} {ch ch' : α → List α} {top n : ℕ} {root : Option α} {lev : α → ℕ} {x y z r : α}

/-- An element with `n` levels, parents before their children. -/
def below (ch : α → List α) : ℕ → α → List α
  | 0, _ => []
  | 1, x => [x]
  | n + 2, x => x :: (ch x).flatMap (below ch (n + 1))

/-- Elements of level 0 are not known. -/
structure Levelled (ch : α → List α) (top : ℕ) (root : Option α) (lev : α → ℕ) : Prop where
  child : ∀ x y, lev x ≠ 0 → y ∈ ch x → lev y ≠ 0 ∧ lev x = lev y + 1
  nodup : ∀ x, lev x ≠ 0 → (ch x).Nodup
  unique : ∀ x x' y, lev x ≠ 0 → lev x' ≠ 0 → y ∈ ch x → y ∈ ch x' → x = x'
  parent : ∀ y, lev y ≠ 0 → root = some y ∨ ∃ x, lev x ≠ 0 ∧ y ∈ ch x
  le : ∀ x, lev x ≤ top
  root : ∀ r, root = some r → lev r = top

theorem mem_below_self (hn : n ≠ 0) : x ∈ below ch n x := by
  match n, hn with
  | 1, _ => exact List.mem_singleton_self x
  | n + 2, _ => exact List.mem_cons_self

namespace Levelled

theorem bottom (h : Levelled ch top root lev) (hx : lev x = 1) : ch x = [] := by
  refine List.eq_nil_iff_forall_not_mem.mpr fun y hy => ?_
  obtain ⟨hne, heq⟩ := h.child x y (by omega) hy
  omega

theorem lev_of_mem (h : Levelled ch top root lev) (hx : lev x = n) (hz : z ∈ below ch n x) :
    lev z ≠ 0 ∧ lev z ≤ n := by
  induction n using Nat.strong_induction_on generalizing x with
  | _ n ih =>
      match n, hz with
      | 1, hz =>
          obtain rfl := List.mem_singleton.mp hz
          omega
      | n + 2, hz =>
          rcases List.mem_cons.mp hz with rfl | hz
          · omega
          · obtain ⟨c, hc, hz⟩ := List.mem_flatMap.mp hz
            obtain ⟨-, hlev⟩ := h.child x c (by omega) hc
            have := ih (n + 1) (by omega) (by omega) hz
            omega

theorem mem_below_child (h : Levelled ch top root lev) (hx : lev x = n) (hz : z ∈ below ch n x)
    (hy : y ∈ ch z) : y ∈ below ch n x := by
  induction n using Nat.strong_induction_on generalizing x with
  | _ n ih =>
      match n, hz with
      | 1, hz =>
          obtain rfl := List.mem_singleton.mp hz
          rw [h.bottom hx] at hy
          cases hy
      | n + 2, hz =>
          rcases List.mem_cons.mp hz with rfl | hz
          · exact List.mem_cons_of_mem z
              (List.mem_flatMap.mpr ⟨y, hy, mem_below_self (Nat.succ_ne_zero n)⟩)
          · obtain ⟨c, hc, hz⟩ := List.mem_flatMap.mp hz
            obtain ⟨-, hlev⟩ := h.child x c (by omega) hc
            refine List.mem_cons_of_mem x (List.mem_flatMap.mpr ⟨c, hc, ?_⟩)
            exact ih (n + 1) (by omega) (by omega) hz

theorem mem_below_up (h : Levelled ch top root lev) (hx : lev x = n) (hz : z ∈ below ch n x) :
    z = x ∨ ∃ p ∈ below ch n x, z ∈ ch p := by
  induction n using Nat.strong_induction_on generalizing x with
  | _ n ih =>
      match n, hz with
      | 1, hz => exact Or.inl (List.mem_singleton.mp hz)
      | n + 2, hz =>
          rcases List.mem_cons.mp hz with rfl | hz
          · exact Or.inl rfl
          · obtain ⟨c, hc, hz⟩ := List.mem_flatMap.mp hz
            obtain ⟨-, hlev⟩ := h.child x c (by omega) hc
            rcases ih (n + 1) (by omega) (by omega) hz with rfl | ⟨p, hp, hzp⟩
            · exact Or.inr ⟨x, List.mem_cons_self, hc⟩
            · exact Or.inr ⟨p, List.mem_cons_of_mem x (List.mem_flatMap.mpr ⟨c, hc, hp⟩), hzp⟩

theorem below_unique (h : Levelled ch top root lev) {x' : α} (hx : lev x = n) (hx' : lev x' = n)
    (hz : z ∈ below ch n x) (hz' : z ∈ below ch n x') : x = x' := by
  induction hd : n - lev z using Nat.strong_induction_on generalizing z with
  | _ d ih =>
      have hup : ∀ {x p}, lev x = n → p ∈ below ch n x → z ∈ ch p →
          lev p ≠ 0 ∧ lev p = lev z + 1 ∧ lev p ≤ n := fun hx hp hzp => by
        obtain ⟨hne, hle⟩ := h.lev_of_mem hx hp
        exact ⟨hne, (h.child _ z hne hzp).2, hle⟩
      rcases h.mem_below_up hx hz with rfl | ⟨p, hp, hzp⟩
      · rcases h.mem_below_up hx' hz' with rfl | ⟨p', hp', hzp'⟩
        · rfl
        · have := hup hx' hp' hzp'
          omega
      · obtain ⟨hne, hlev, hle⟩ := hup hx hp hzp
        rcases h.mem_below_up hx' hz' with rfl | ⟨p', hp', hzp'⟩
        · omega
        · obtain ⟨hne', -, -⟩ := hup hx' hp' hzp'
          obtain rfl := h.unique p p' z hne hne' hzp hzp'
          exact ih (n - lev p) (by omega) hp hp' rfl

theorem below_nodup (h : Levelled ch top root lev) (hx : lev x = n) : (below ch n x).Nodup := by
  induction n using Nat.strong_induction_on generalizing x with
  | _ n ih =>
      match n with
      | 0 => exact List.nodup_nil
      | 1 => exact List.nodup_singleton x
      | n + 2 =>
          have hlev : ∀ c ∈ ch x, lev c = n + 1 := fun c hc => by
            have := (h.child x c (by omega) hc).2
            omega
          rw [below, List.nodup_cons, List.nodup_flatMap]
          refine ⟨fun hmem => ?_, fun c hc => ih (n + 1) (by omega) (hlev c hc), ?_⟩
          · obtain ⟨c, hc, hxc⟩ := List.mem_flatMap.mp hmem
            have := (h.lev_of_mem (hlev c hc) hxc).2
            omega
          · refine (h.nodup x (by omega)).pairwise_of_forall_ne fun b hb c hc hne z hz hz' => ?_
            exact hne (h.below_unique (hlev b hb) (hlev c hc) hz hz')

theorem mem_below_root (h : Levelled ch top (some r) lev) (hy : lev y ≠ 0) :
    y ∈ below ch top r := by
  induction hd : top - lev y using Nat.strong_induction_on generalizing y with
  | _ d ih =>
      have hr := h.root r rfl
      rcases h.parent y hy with heq | ⟨x, hx, hyx⟩
      · obtain rfl := Option.some.inj heq
        exact mem_below_self (hr ▸ hy)
      · have hlev := (h.child x y hx hyx).2
        have hle := h.le x
        exact h.mem_below_child hr (ih (top - lev x) (by omega) hx rfl) hyx

theorem unrooted (h : Levelled ch top none lev) (x : α) : lev x = 0 := by
  by_contra hx
  induction hd : top - lev x using Nat.strong_induction_on generalizing x with
  | _ d ih =>
      obtain ⟨p, hp, hxp⟩ := (h.parent x hx).resolve_left fun hroot => nomatch hroot
      have hlev := (h.child p x hp hxp).2
      have hle := h.le p
      exact ih (top - lev p) (by omega) p hp rfl

/-! ## Growth -/

theorem start (ch : α → List α) (top : ℕ) : Levelled ch top none fun _ => 0 :=
  ⟨fun _ _ h => absurd rfl h, fun _ h => absurd rfl h, fun _ _ _ h => absurd rfl h,
    fun _ h => absurd rfl h, fun _ => Nat.zero_le top, fun _ h => nomatch h⟩

variable [DecidableEq α]

theorem plant (hnil : ch r = []) : Levelled ch top (some r) (Function.update (fun _ => 0) r top) := by
  have hlev : ∀ x, Function.update (fun _ => 0) r top x ≠ 0 → x = r := fun x hx => by
    by_contra hne
    exact hx (Function.update_of_ne hne _ _)
  refine ⟨fun x y hx hy => ?_, fun x hx => ?_, fun x x' y hx hx' _ _ => ?_, fun y hy => ?_,
    fun x => ?_, fun r' hr' => ?_⟩
  · rw [hlev x hx, hnil] at hy
    cases hy
  · rw [hlev x hx, hnil]
    exact List.nodup_nil
  · rw [hlev x hx, hlev x' hx']
  · exact Or.inl (congrArg some (hlev y hy).symm)
  · by_cases hx : x = r
    · subst hx
      exact Nat.le_of_eq (Function.update_self _ _ _)
    · rw [Function.update_of_ne hx]
      exact Nat.zero_le top
  · rw [← Option.some.inj hr', Function.update_self]

/-- An element that was not known becomes a child of one that is. -/
theorem link (h : Levelled ch top root lev) (hx : lev x = n + 2) (hy : lev y = 0)
    (hperm : (ch' x).Perm (y :: ch x)) (hnil : ch' y = [])
    (hother : ∀ z, z ≠ x → z ≠ y → ch' z = ch z) :
    Levelled ch' top root (Function.update lev y (n + 1)) := by
  have hxy : x ≠ y := by
    rintro rfl
    omega
  have hlev : ∀ z, z ≠ y → Function.update lev y (n + 1) z = lev z := fun z hz =>
    Function.update_of_ne hz _ _
  have hself : Function.update lev y (n + 1) y = n + 1 := Function.update_self _ _ _
  -- A child is the new one of `x`, or was a child of the same parent before.
  have hmem : ∀ z w, Function.update lev y (n + 1) z ≠ 0 → w ∈ ch' z →
      z = x ∧ w = y ∨ lev z ≠ 0 ∧ w ∈ ch z ∧ w ≠ y ∧ z ≠ y := by
    intro z w hz hw
    by_cases hzy : z = y
    · rw [hzy, hnil] at hw
      cases hw
    rw [hlev z hzy] at hz
    by_cases hzx : z = x
    · subst hzx
      rcases List.mem_cons.mp (hperm.mem_iff.mp hw) with hwy | hw
      · exact Or.inl ⟨rfl, hwy⟩
      · exact Or.inr ⟨hz, hw, fun hwy => (h.child z w hz hw).1 (hwy ▸ hy), hzy⟩
    · rw [hother z hzx hzy] at hw
      exact Or.inr ⟨hz, hw, fun hwy => (h.child z w hz hw).1 (hwy ▸ hy), hzy⟩
  refine ⟨fun z w hz hw => ?_, fun z hz => ?_, fun z z' w hz hz' hw hw' => ?_, fun w hw => ?_,
    fun z => ?_, fun r hr => ?_⟩
  · rcases hmem z w hz hw with ⟨rfl, rfl⟩ | ⟨hz, hw, hwy, hzy⟩
    · rw [hself, hlev z hxy]
      omega
    · rw [hlev w hwy, hlev z hzy]
      exact h.child z w hz hw
  · by_cases hzy : z = y
    · rw [hzy, hnil]
      exact List.nodup_nil
    rw [hlev z hzy] at hz
    by_cases hzx : z = x
    · subst hzx
      refine hperm.nodup_iff.mpr (List.nodup_cons.mpr ⟨fun hmem => ?_, h.nodup z hz⟩)
      exact (h.child z y hz hmem).1 hy
    · rw [hother z hzx hzy]
      exact h.nodup z hz
  · rcases hmem z w hz hw with ⟨rfl, rfl⟩ | ⟨hz, hw, hwy, -⟩
    · rcases hmem z' w hz' hw' with ⟨rfl, -⟩ | ⟨-, -, hwy, -⟩
      · rfl
      · exact absurd rfl hwy
    · rcases hmem z' w hz' hw' with ⟨-, rfl⟩ | ⟨hz', hw', -, -⟩
      · exact absurd rfl hwy
      · exact h.unique z z' w hz hz' hw hw'
  · by_cases hwy : w = y
    · subst hwy
      exact Or.inr ⟨x, by rw [hlev x hxy]; omega, hperm.mem_iff.mpr List.mem_cons_self⟩
    rw [hlev w hwy] at hw
    refine (h.parent w hw).imp_right fun ⟨z, hz, hzw⟩ => ?_
    have hzy : z ≠ y := fun hzy => hz (hzy ▸ hy)
    refine ⟨z, by rwa [hlev z hzy], ?_⟩
    by_cases hzx : z = x
    · subst hzx
      exact hperm.mem_iff.mpr (List.mem_cons_of_mem y hzw)
    · rwa [hother z hzx hzy]
  · have hle := h.le x
    by_cases hzy : z = y
    · rw [hzy, hself]
      omega
    · rw [hlev z hzy]
      exact h.le z
  · have hle := h.le x
    have hry : r ≠ y := by
      rintro rfl
      have := h.root r hr
      omega
    rw [hlev r hry]
    exact h.root r hr

end Levelled

end Carthage
