import Mathlib.Logic.Relation

/-!
# Runs of a labelled step relation

A run is a finite sequence of steps with the labels it passes through. Invariants and
simulations are carried from one step to all runs here, once.
-/

namespace Carthage

variable {S A L : Type}

inductive Run (step : S → L → S → Prop) : S → List L → S → Prop
  | nil (s : S) : Run step s [] s
  | cons {s s' s'' : S} {l : L} {ls : List L} :
      step s l s' → Run step s' ls s'' → Run step s (l :: ls) s''

namespace Run

variable {step : S → L → S → Prop} {astep : A → L → A → Prop} {s s' s'' : S} {l : L} {ls ms : List L}

theorem append (h : Run step s ls s') (h' : Run step s' ms s'') : Run step s (ls ++ ms) s'' := by
  induction h with
  | nil => exact h'
  | cons hstep _ ih => exact .cons hstep (ih h')

theorem invariant (I : S → Prop) (hstep : ∀ s l s', I s → step s l s' → I s')
    (h : Run step s ls s') (hs : I s) : I s' := by
  induction h with
  | nil => exact hs
  | cons h _ ih => exact ih (hstep _ _ _ hs h)

theorem simulate (R : S → A → Prop)
    (hstep : ∀ s a l s', R s a → step s l s' → ∃ a', astep a l a' ∧ R s' a')
    (h : Run step s ls s') {a : A} (hs : R s a) : ∃ a', Run astep a ls a' ∧ R s' a' := by
  induction h generalizing a with
  | nil => exact ⟨a, .nil a, hs⟩
  | cons h _ ih =>
      obtain ⟨a₁, ha₁, hR⟩ := hstep _ _ _ _ hs h
      obtain ⟨a', ha', hR'⟩ := ih hR
      exact ⟨a', .cons ha₁ ha', hR'⟩

end Run

/-! ## Lists of operations -/

section Operations

variable {Op R : Type} (step : S → Op → Option (R × S))

/-- The results of operations done one after the other; `none` when one of them gets stuck. -/
def runAll : S → List Op → Option (List R × S)
  | s, [] => some ([], s)
  | s, op :: ops => do
      let (r, s) ← step s op
      let (rs, s) ← runAll s ops
      return (r :: rs, s)

/-- Every operation meets a condition in the state it is done in. -/
def Meets (ok : S → Op → Prop) : S → List Op → Prop
  | _, [] => True
  | s, op :: ops => ok s op ∧ ∀ r s', step s op = some (r, s') → Meets ok s' ops

variable {step} {ok : S → Op → Prop} {s : S} {ops : List Op}

theorem meets_of_forall (h : ∀ s, ∀ op ∈ ops, ok s op) : Meets step ok s ops := by
  induction ops generalizing s with
  | nil => trivial
  | cons op ops ih =>
      refine ⟨h s op List.mem_cons_self, fun r s' _ => ?_⟩
      apply ih
      exact fun s op' hop => h s op' (List.mem_cons_of_mem op hop)

theorem runAll_invariant (I : S → Prop)
    (hstep : ∀ s op, I s → ok s op → ∃ r s', step s op = some (r, s') ∧ I s')
    (hs : I s) (hm : Meets step ok s ops) : ∃ rs s', runAll step s ops = some (rs, s') ∧ I s' := by
  induction ops generalizing s with
  | nil => exact ⟨[], s, rfl, hs⟩
  | cons op ops ih =>
      obtain ⟨r, s₁, h₁, hI₁⟩ := hstep s op hs hm.1
      obtain ⟨rs, s', hrun, hI'⟩ := ih hI₁ (hm.2 r s₁ h₁)
      refine ⟨r :: rs, s', ?_, hI'⟩
      unfold runAll
      simp only [h₁, hrun, Option.bind_eq_bind, Option.bind_some, Option.pure_def]

theorem runAll_history (I : List R → S → Prop)
    (hstep : ∀ rs s op, I rs s → ok s op → ∃ r s', step s op = some (r, s') ∧ I (rs ++ [r]) s')
    {rs : List R} (hs : I rs s) (hm : Meets step ok s ops) :
    ∃ rs' s', runAll step s ops = some (rs', s') ∧ I (rs ++ rs') s' := by
  induction ops generalizing s rs with
  | nil => exact ⟨[], s, rfl, by rwa [List.append_nil]⟩
  | cons op ops ih =>
      obtain ⟨r, s₁, h₁, hI₁⟩ := hstep rs s op hs hm.1
      obtain ⟨rs', s', hrun, hI'⟩ := ih hI₁ (hm.2 r s₁ h₁)
      refine ⟨r :: rs', s', ?_, ?_⟩
      · unfold runAll
        simp only [h₁, hrun, Option.bind_eq_bind, Option.bind_some, Option.pure_def]
      · rwa [List.append_assoc] at hI'

theorem runAll_cons (op : Op) (ops : List Op) : runAll step s (op :: ops) =
    (step s op).bind fun x => (runAll step x.2 ops).map fun y => (x.1 :: y.1, y.2) := by
  conv => lhs; unfold runAll
  cases step s op with
  | none => rfl
  | some x => exact Option.map_eq_bind.symm

theorem runAll_length {rs : List R} {s' : S} (hrun : runAll step s ops = some (rs, s')) :
    rs.length = ops.length := by
  induction ops generalizing s rs with
  | nil =>
      obtain ⟨rfl, -⟩ := Prod.mk.inj (Option.some.inj hrun)
      rfl
  | cons op ops ih =>
      rw [runAll_cons] at hrun
      obtain ⟨⟨r, s₁⟩, hop, hrun⟩ := Option.bind_eq_some_iff.mp hrun
      obtain ⟨⟨rs₁, s₂⟩, hrest, heq⟩ := Option.map_eq_some_iff.mp hrun
      obtain ⟨rfl, rfl⟩ := Prod.mk.inj heq
      rw [List.length_cons, List.length_cons, ih hrest]

theorem runAll_append (ops₁ ops₂ : List Op) : runAll step s (ops₁ ++ ops₂) =
    (runAll step s ops₁).bind fun x =>
      (runAll step x.2 ops₂).map fun y => (x.1 ++ y.1, y.2) := by
  induction ops₁ generalizing s with
  | nil =>
      rw [List.nil_append, runAll, Option.bind_some]
      exact (Option.map_id' (x := runAll step s ops₂)).symm
  | cons op ops₁ ih =>
      rw [List.cons_append, runAll_cons, runAll_cons]
      cases step s op with
      | none => rfl
      | some x =>
          rw [Option.bind_some, Option.bind_some, ih]
          cases runAll step x.2 ops₁ with
          | none => rfl
          | some y => exact Option.map_map _ _ _

theorem runAll_preserves (I : S → Prop) {rs : List R} {s' : S}
    (hstep : ∀ s, ∀ op ∈ ops, ∀ r s', I s → step s op = some (r, s') → I s') (hs : I s)
    (hrun : runAll step s ops = some (rs, s')) : I s' := by
  induction ops generalizing s rs with
  | nil =>
      obtain ⟨-, rfl⟩ := Prod.mk.inj (Option.some.inj hrun)
      exact hs
  | cons op ops ih =>
      rw [runAll_cons] at hrun
      obtain ⟨⟨r, s₁⟩, hop, hrun⟩ := Option.bind_eq_some_iff.mp hrun
      obtain ⟨⟨rs₁, s₂⟩, hrest, heq⟩ := Option.map_eq_some_iff.mp hrun
      obtain ⟨-, rfl⟩ := Prod.mk.inj heq
      apply ih _ (hstep s op List.mem_cons_self r s₁ hs hop) hrest
      exact fun s op' hmem => hstep s op' (List.mem_cons_of_mem op hmem)

theorem runAll_meets (I : S → Prop) {rs : List R} {s' : S}
    (hstep : ∀ s op r s', I s → ok s op → step s op = some (r, s') → I s') (hs : I s)
    (hm : Meets step ok s ops) (hrun : runAll step s ops = some (rs, s')) : I s' := by
  induction ops generalizing s rs with
  | nil =>
      obtain ⟨-, rfl⟩ := Prod.mk.inj (Option.some.inj hrun)
      exact hs
  | cons op ops ih =>
      rw [runAll_cons] at hrun
      obtain ⟨⟨r, s₁⟩, hop, hrun⟩ := Option.bind_eq_some_iff.mp hrun
      obtain ⟨⟨rs₁, s₂⟩, hrest, heq⟩ := Option.map_eq_some_iff.mp hrun
      obtain ⟨-, rfl⟩ := Prod.mk.inj heq
      exact ih (hstep s op r s₁ hs hm.1 hop) (hm.2 r s₁ hop) hrest

theorem runAll_simulates (R' : S → A → Prop) (spec : A → Op × R → A → Prop)
    (hstep : ∀ s a op, R' s a → ok s op →
      ∃ r s' a', step s op = some (r, s') ∧ spec a (op, r) a' ∧ R' s' a')
    {a : A} (hs : R' s a) (hm : Meets step ok s ops) :
    ∃ rs s' a', runAll step s ops = some (rs, s') ∧ rs.length = ops.length ∧
      Run spec a (ops.zip rs) a' ∧ R' s' a' := by
  induction ops generalizing s a with
  | nil => exact ⟨[], s, a, rfl, rfl, .nil a, hs⟩
  | cons op ops ih =>
      obtain ⟨r, s₁, a₁, h₁, hspec, hR₁⟩ := hstep s a op hs hm.1
      obtain ⟨rs, s', a', hrun, hlen, hspecs, hR'⟩ := ih hR₁ (hm.2 r s₁ h₁)
      refine ⟨r :: rs, s', a', ?_, ?_, .cons hspec hspecs, hR'⟩
      · unfold runAll
        simp only [h₁, hrun, Option.bind_eq_bind, Option.bind_some, Option.pure_def]
      · rw [List.length_cons, List.length_cons, hlen]

/-- Where a step keeps a property exactly when it meets a condition, the property holds all along a
run of enabled operations exactly when every operation meets the condition. -/
theorem runAll_always_iff {en : S → Op → Prop} (I Q : S → Prop)
    (hstep : ∀ s op, I s → Q s → en s op →
      ∃ r s', step s op = some (r, s') ∧ I s' ∧ (Q s' ↔ ok s op))
    (hI : I s) (hQ : Q s) (hen : Meets step en s ops) :
    (∀ before after, ops = before ++ after → ∀ rs s', runAll step s before = some (rs, s') → Q s') ↔
      Meets step ok s ops := by
  induction ops generalizing s with
  | nil =>
      refine ⟨fun _ => trivial, ?_⟩
      intro _ before after hsplit rs s' hrun
      obtain rfl := (List.append_eq_nil_iff.mp hsplit.symm).1
      obtain ⟨-, rfl⟩ := Prod.mk.inj (Option.some.inj hrun)
      exact hQ
  | cons op ops ih =>
      obtain ⟨r, s₁, h₁, hI₁, hiff⟩ := hstep s op hI hQ hen.1
      have hen₁ := hen.2 r s₁ h₁
      constructor
      · intro h
        have hrun₁ : runAll step s [op] = some ([r], s₁) := by
          simp only [runAll, h₁, Option.bind_eq_bind, Option.bind_some, Option.pure_def]
        have hQ₁ : Q s₁ := h [op] ops rfl [r] s₁ hrun₁
        refine ⟨hiff.mp hQ₁, ?_⟩
        intro r' s' h'
        obtain ⟨rfl, rfl⟩ := Prod.mk.inj (Option.some.inj (h₁.symm.trans h'))
        apply (ih hI₁ hQ₁ hen₁).mp
        intro before after hsplit rs s' hrun
        apply h (op :: before) after (by rw [hsplit, List.cons_append]) (r :: rs)
        rw [runAll_cons, h₁, Option.bind_some, hrun]
        rfl
      · rintro ⟨hok, hrest⟩ before after hsplit rs s' hrun
        have hQ₁ := hiff.mpr hok
        cases before with
        | nil =>
            obtain ⟨-, rfl⟩ := Prod.mk.inj (Option.some.inj hrun)
            exact hQ
        | cons op' before =>
            rw [List.cons_append] at hsplit
            obtain ⟨rfl, htail⟩ := List.cons.inj hsplit
            rw [runAll_cons, h₁, Option.bind_some, Option.map_eq_some_iff] at hrun
            obtain ⟨⟨rs₁, s₂⟩, hrun, heq⟩ := hrun
            obtain ⟨-, rfl⟩ := Prod.mk.inj heq
            exact (ih hI₁ hQ₁ hen₁).mpr (hrest r s₁ h₁) before after htail rs₁ s₂ hrun

end Operations

end Carthage
