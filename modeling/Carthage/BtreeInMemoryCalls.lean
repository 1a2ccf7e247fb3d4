import Carthage.BtreeInMemory
import Carthage.BtreeRemoveKey

/-!
# Calls on a tree that lives in memory

Insertions, removals and lookups keep a tree in memory when no memory is refused, and count the
items that they add and remove.
-/

namespace Carthage

namespace Btree

namespace InMemory

variable {K D : Type} [LinearOrder K] {env : BtreeEnv K D} {f : Frame K D} {N : List ℕ}
  {s s' : Btree K D} {x y i fuel level : ℕ} {key : K} {value : List UInt8} {place : Place} {rc : ℤ}

/-! ## Separators -/

theorem twigsUpdateLoop {newKey : Option K} (h : InMemory f [] s) (hf : f.rooted = true)
    (hrun : twigsUpdateLoop env key newKey fuel level s = some s') : InMemory f [] s' := by
  induction fuel generalizing s level with
  | zero => cases hrun
  | succ fuel ih =>
      obtain ⟨⟨found, place, s₁⟩, hlook, hrun⟩ := Option.bind_eq_some_iff.mp hrun
      have h₁ := h.lookupLevel hf hlook
      cases found with
      | none =>
          obtain rfl := Option.some.inj hrun
          exact h₁
      | some x =>
          obtain ⟨s₂, hset, hrun⟩ := Option.bind_eq_some_iff.mp hrun
          have h₂ := h₁.update List.not_mem_nil hset
          have hrest : ∀ s₃, InMemory f [] s₃ → ((s₃.btnodeRelease env x).bind fun s =>
              Btree.twigsUpdateLoop env key newKey fuel (level + 1) s) = some s' →
              InMemory f [] s' := by
            intro s₃ h₃ hrun
            obtain ⟨s₄, hrelease, hrun⟩ := Option.bind_eq_some_iff.mp hrun
            exact ih (h₃.release List.not_mem_nil hrelease) hrun
          dsimp only at hrun
          split_ifs at hrun
          · obtain ⟨page, -, hrun⟩ := Option.bind_eq_some_iff.mp hrun
            obtain ⟨twig, -, hrun⟩ := Option.bind_eq_some_iff.mp hrun
            obtain ⟨entry, -, hrun⟩ := Option.bind_eq_some_iff.mp hrun
            obtain ⟨new, -, hrun⟩ := Option.bind_eq_some_iff.mp hrun
            obtain ⟨s₃, hreplace, hrun⟩ := Option.bind_eq_some_iff.mp hrun
            exact hrest s₃ (h₂.twigReplace hreplace) hrun
          · exact hrest s₂ h₂ hrun

theorem twigsUpdate {newKey : Option K} (h : InMemory f [] s) (hf : f.rooted = true)
    (hrun : s.btreeTwigsUpdate env x key newKey = some s') : InMemory f [] s' := by
  obtain ⟨page, -, hrun⟩ := Option.bind_eq_some_iff.mp hrun
  exact h.twigsUpdateLoop hf hrun

theorem twigsInsertUpdate (h : InMemory f [] s) (hf : f.rooted = true)
    (hrun : s.btreeTwigsInsertUpdate env x i key = some s') : InMemory f [] s' := by
  obtain ⟨last, -, hrun⟩ := Option.bind_eq_some_iff.mp hrun
  obtain ⟨page, -, hrun⟩ := Option.bind_eq_some_iff.mp hrun
  split_ifs at hrun
  all_goals exact h.twigsUpdate hf hrun

theorem twigsRemoveUpdate (h : InMemory f [] s) (hf : f.rooted = true)
    (hrun : s.btreeTwigsRemoveUpdate env x i = some s') : InMemory f [] s' := by
  obtain ⟨last, -, hrun⟩ := Option.bind_eq_some_iff.mp hrun
  obtain ⟨page, -, hrun⟩ := Option.bind_eq_some_iff.mp hrun
  split_ifs at hrun
  all_goals exact h.twigsUpdate hf hrun

/-! ## Insertion -/

theorem grow {o : Option ℕ} (hg : ∀ n, env.granted n = true) (h : InMemory f [] s)
    (hf : f.rooted = true ∨ s.super.height = 1) (hrun : s.btreeGrow env = some (o, s')) :
    ∃ r, o = some r ∧ InMemory { f with rooted := true } [r] s' := by
  obtain ⟨s₁, halloc, h₁, -⟩ := h.alloc hg s.super.height
  have hrooted : ∀ s₂ : Btree K D, InMemory f [s.fresh] s₂ → some (some s.fresh, { s₂ with
      root := some s.fresh,
      super := { s₂.super with height := (s₂.super.height + 1) % 2 ^ 8 } }) = some (o, s') →
      ∃ r, o = some r ∧ InMemory { f with rooted := true } [r] s' := by
    intro s₂ h₂ hrun
    obtain ⟨rfl, rfl⟩ := Prod.mk.inj (Option.some.inj hrun)
    refine ⟨s.fresh, rfl, ?_, h₂.node⟩
    rw [← h₂.frame]
    rfl
  simp only [btreeGrow, halloc] at hrun
  split_ifs at hrun with hheight
  · obtain ⟨⟨old, t₁⟩, hfetch, hrun⟩ := Option.bind_eq_some_iff.mp hrun
    obtain ⟨r, -, rfl, ht₁⟩ := h₁.fetchRoot (hf.resolve_right (by omega)) hfetch
    obtain ⟨old, -, hrun⟩ := Option.bind_eq_some_iff.mp hrun
    obtain ⟨key, -, hrun⟩ := Option.bind_eq_some_iff.mp hrun
    obtain ⟨t₂, hinsert, hrun⟩ := Option.bind_eq_some_iff.mp hrun
    obtain ⟨t₃, hset, hrun⟩ := Option.bind_eq_some_iff.mp hrun
    obtain ⟨t₄, hrelease, hrun⟩ := Option.bind_eq_some_iff.mp hrun
    have hchild : t₁.twigInsertChild s.fresh 0 key old = some t₃ := by
      simp only [Btree.twigInsertChild, hinsert, hset, Option.bind_eq_bind, Option.bind_some]
    have ht₃ : InMemory f [] t₃ := ht₁.twigInsertChild hchild
    exact hrooted t₄ ((ht₃.release List.not_mem_nil hrelease).weaken s.fresh) hrun
  · exact hrooted s₁ h₁ hrun

theorem insertNode (hg : ∀ n, env.granted n = true) (h : InMemory f [] s) (hf : f.rooted = true)
    (hrun : btreeInsertNode env fuel s x = some (rc, s')) : rc = 0 ∧ InMemory f [] s' := by
  have hroot : ({ f with rooted := true } : Frame K D) = f := by rw [← hf]
  induction fuel generalizing s x rc s' with
  | zero => cases hrun
  | succ fuel ih =>
      obtain ⟨key, -, hrun⟩ := Option.bind_eq_some_iff.mp hrun
      obtain ⟨page, -, hrun⟩ := Option.bind_eq_some_iff.mp hrun
      obtain ⟨⟨found, place, s₁⟩, hlook, hrun⟩ := Option.bind_eq_some_iff.mp hrun
      have h₁ := h.lookupLevel hf hlook
      cases found with
      | none =>
          obtain ⟨⟨grown, s₂⟩, hgrow, hrun⟩ := Option.bind_eq_some_iff.mp hrun
          obtain ⟨twig, rfl, h₂⟩ := h₁.grow hg (Or.inl hf) hgrow
          rw [hroot] at h₂
          obtain ⟨index, -, hrun⟩ := Option.bind_eq_some_iff.mp hrun
          obtain ⟨s₃, hinsert, hrun⟩ := Option.bind_eq_some_iff.mp hrun
          obtain ⟨s₄, hrelease, hrun⟩ := Option.bind_eq_some_iff.mp hrun
          obtain ⟨rfl, rfl⟩ := Prod.mk.inj (Option.some.inj hrun)
          exact ⟨rfl, (h₂.twigInsertChild hinsert).release List.not_mem_nil hrelease⟩
      | some twig =>
          obtain ⟨tpage, htpage, hrun⟩ := Option.bind_eq_some_iff.mp hrun
          split_ifs at hrun with hroom hlast
          · obtain ⟨index, -, hrun⟩ := Option.bind_eq_some_iff.mp hrun
            obtain ⟨s₂, hupdate, hrun⟩ := Option.bind_eq_some_iff.mp hrun
            obtain ⟨s₃, hinsert, hrun⟩ := Option.bind_eq_some_iff.mp hrun
            obtain ⟨s₄, hrelease, hrun⟩ := Option.bind_eq_some_iff.mp hrun
            obtain ⟨rfl, rfl⟩ := Prod.mk.inj (Option.some.inj hrun)
            have h₂ := h₁.twigsInsertUpdate hf hupdate
            have h₃ := (h₂.weaken twig).twigInsertChild hinsert
            exact ⟨rfl, h₃.release List.not_mem_nil hrelease⟩
          · obtain ⟨s₂, halloc, h₂, hempty⟩ := h₁.alloc hg tpage.level
            simp only [halloc] at hrun
            obtain ⟨s₃, hsplit, hrun⟩ := Option.bind_eq_some_iff.mp hrun
            have h₃ := h₂.twigSplit (fun page hp => (hempty page hp).1) hsplit
            obtain ⟨last, -, hrun⟩ := Option.bind_eq_some_iff.mp hrun
            obtain ⟨s₄, hupdate, hrun⟩ := Option.bind_eq_some_iff.mp hrun
            have h₄ := h₃.twigsUpdate hf hupdate
            obtain ⟨first, -, hrun⟩ := Option.bind_eq_some_iff.mp hrun
            obtain ⟨index, -, hrun⟩ := Option.bind_eq_some_iff.mp hrun
            obtain ⟨s₅, hupdate', hrun⟩ := Option.bind_eq_some_iff.mp hrun
            have h₅ := h₄.twigsInsertUpdate hf hupdate'
            obtain ⟨s₆, hinsert, hrun⟩ := Option.bind_eq_some_iff.mp hrun
            have h₆ : InMemory f [] s₆ := (h₅.weaken _).twigInsertChild hinsert
            obtain ⟨⟨rc', s₇⟩, hnode, hrun⟩ := Option.bind_eq_some_iff.mp hrun
            obtain ⟨rfl, h₇⟩ := ih h₆ hnode
            obtain ⟨s₈, hrelease, hrun⟩ := Option.bind_eq_some_iff.mp hrun
            obtain ⟨s₉, hrelease', hrun⟩ := Option.bind_eq_some_iff.mp hrun
            obtain ⟨rfl, rfl⟩ := Prod.mk.inj (Option.some.inj hrun)
            have h₈ := h₇.release List.not_mem_nil hrelease
            exact ⟨rfl, h₈.release List.not_mem_nil hrelease'⟩
          · obtain ⟨s₂, halloc, h₂, -⟩ := h₁.alloc hg tpage.level
            simp only [halloc] at hrun
            obtain ⟨s₃, hinsert, hrun⟩ := Option.bind_eq_some_iff.mp hrun
            have h₃ := h₂.twigInsertChild hinsert
            obtain ⟨⟨rc', s₄⟩, hnode, hrun⟩ := Option.bind_eq_some_iff.mp hrun
            obtain ⟨rfl, h₄⟩ := ih h₃ hnode
            obtain ⟨s₅, hrelease, hrun⟩ := Option.bind_eq_some_iff.mp hrun
            obtain ⟨s₆, hrelease', hrun⟩ := Option.bind_eq_some_iff.mp hrun
            obtain ⟨rfl, rfl⟩ := Prod.mk.inj (Option.some.inj hrun)
            have h₅ := h₄.release List.not_mem_nil hrelease
            exact ⟨rfl, h₅.release List.not_mem_nil hrelease'⟩

theorem leafSplitInsert (hg : ∀ n, env.granted n = true) (h : InMemory f [] s)
    (hf : f.rooted = true) (hrun : s.btreeLeafSplitInsert env x key value = some (rc, s')) :
    rc = 0 ∧ InMemory (f.gain value.length) [] s' := by
  obtain ⟨s₁, halloc, h₁, -⟩ := h.alloc hg 1
  simp only [btreeLeafSplitInsert, halloc] at hrun
  obtain ⟨s₂, hsplit, hrun⟩ := Option.bind_eq_some_iff.mp hrun
  have h₂ := h₁.leafSplit hsplit
  obtain ⟨last, -, hrun⟩ := Option.bind_eq_some_iff.mp hrun
  obtain ⟨s₃, hupdate, hrun⟩ := Option.bind_eq_some_iff.mp hrun
  have h₃ := h₂.twigsUpdate hf hupdate
  obtain ⟨⟨rc', s₄⟩, hnode, hrun⟩ := Option.bind_eq_some_iff.mp hrun
  obtain ⟨rfl, h₄⟩ := h₃.insertNode hg hf hnode
  obtain ⟨first, -, hrun⟩ := Option.bind_eq_some_iff.mp hrun
  obtain ⟨page, -, hrun⟩ := Option.bind_eq_some_iff.mp hrun
  dsimp only at hrun
  by_cases hroom : page.free < s₄.super.itemNeeded value.length % 2 ^ 32
  · rw [if_pos hroom] at hrun
    obtain ⟨s₅, halloc', -, hempty⟩ := h₄.alloc hg 1
    simp only [halloc'] at hrun
    obtain ⟨s₆, hupdate', -⟩ := Option.bind_eq_some_iff.mp hrun
    obtain ⟨last', hlast, -⟩ := Option.bind_eq_some_iff.mp hupdate'
    obtain ⟨page', hpage', hlast⟩ := Option.bind_eq_some_iff.mp hlast
    rw [(hempty page' hpage').2] at hlast
    cases hlast
  · rw [if_neg hroom] at hrun
    obtain ⟨leaf, -, hrun⟩ := Option.bind_eq_some_iff.mp hrun
    obtain ⟨⟨found, index⟩, -, hrun⟩ := Option.bind_eq_some_iff.mp hrun
    obtain ⟨s₅, hupdate', hrun⟩ := Option.bind_eq_some_iff.mp hrun
    have h₅ := h₄.twigsInsertUpdate hf hupdate'
    obtain ⟨s₆, hinsert, hrun⟩ := Option.bind_eq_some_iff.mp hrun
    have h₆ : InMemory (f.gain value.length) [] s₆ := (h₅.weaken _).leafInsert hinsert
    obtain ⟨s₇, hrelease, hrun⟩ := Option.bind_eq_some_iff.mp hrun
    obtain ⟨rfl, rfl⟩ := Prod.mk.inj (Option.some.inj hrun)
    exact ⟨rfl, h₆.release List.not_mem_nil hrelease⟩

theorem insert_first (hg : ∀ n, env.granted n = true) (h : InMemory f [] s) (hroot : s.root = none)
    (hheight : s.super.height = 1) (hrun : s.btreeInsert env key value place = some (rc, s')) :
    InMemory ({ f with rooted := true }.gain value.length) [] s' := by
  simp only [btreeInsert, hroot] at hrun
  obtain ⟨⟨node, s₁⟩, hgrow, hrun⟩ := Option.bind_eq_some_iff.mp hrun
  obtain ⟨r, rfl, h₁⟩ := h.grow hg (Or.inr hheight) hgrow
  obtain ⟨s₂, hinsert, hrun⟩ := Option.bind_eq_some_iff.mp hrun
  have h₂ := h₁.leafInsert hinsert
  obtain ⟨s₃, hrelease, hrun⟩ := Option.bind_eq_some_iff.mp hrun
  obtain ⟨rfl, rfl⟩ := Prod.mk.inj (Option.some.inj hrun)
  exact h₂.release List.not_mem_nil hrelease

theorem insert_miss {place' : Place} {s₁ : Btree K D} {o : Option ℕ}
    (hg : ∀ n, env.granted n = true) (h : InMemory f [] s) (hf : f.rooted = true)
    (hlook : s.btreeLookupLevel env key 1 place = some (o, place', s₁))
    (hmiss : place'.found = false) (hsize : place'.size ≠ value.length)
    (hrun : s.btreeInsert env key value place = some (rc, s')) :
    InMemory (f.gain value.length) [] s' := by
  obtain ⟨r, hr⟩ := h.root hf
  have h₁ := h.lookupLevel hf hlook
  simp only [btreeInsert, hr, hlook, Option.bind_eq_bind, Option.bind_some, if_neg hsize, hmiss,
    Bool.false_eq_true, if_false] at hrun
  obtain ⟨node, -, hrun⟩ := Option.bind_eq_some_iff.mp hrun
  obtain ⟨page, -, hrun⟩ := Option.bind_eq_some_iff.mp hrun
  split_ifs at hrun with hroom hlast
  · obtain ⟨s₂, hupdate, hrun⟩ := Option.bind_eq_some_iff.mp hrun
    have h₂ := h₁.twigsInsertUpdate hf hupdate
    obtain ⟨s₃, hinsert, hrun⟩ := Option.bind_eq_some_iff.mp hrun
    have h₃ := (h₂.weaken node).leafInsert hinsert
    obtain ⟨s₄, hrelease, hrun⟩ := Option.bind_eq_some_iff.mp hrun
    obtain ⟨rfl, rfl⟩ := Prod.mk.inj (Option.some.inj hrun)
    exact h₃.release List.not_mem_nil hrelease
  · obtain ⟨⟨rc', s₂⟩, hsplit, hrun⟩ := Option.bind_eq_some_iff.mp hrun
    obtain ⟨rfl, h₂⟩ := h₁.leafSplitInsert hg hf hsplit
    obtain ⟨s₃, hrelease, hrun⟩ := Option.bind_eq_some_iff.mp hrun
    obtain ⟨rfl, rfl⟩ := Prod.mk.inj (Option.some.inj hrun)
    exact h₂.release List.not_mem_nil hrelease
  · obtain ⟨s₂, halloc, h₂, -⟩ := h₁.alloc hg 1
    simp only [halloc] at hrun
    obtain ⟨s₃, hinsert, hrun⟩ := Option.bind_eq_some_iff.mp hrun
    have h₃ := h₂.leafInsert hinsert
    obtain ⟨⟨rc', s₄⟩, hnode, hrun⟩ := Option.bind_eq_some_iff.mp hrun
    obtain ⟨rfl, h₄⟩ := h₃.insertNode hg hf hnode
    obtain ⟨s₅, hrelease, hrun⟩ := Option.bind_eq_some_iff.mp hrun
    obtain ⟨s₆, hrelease', hrun⟩ := Option.bind_eq_some_iff.mp hrun
    obtain ⟨rfl, rfl⟩ := Prod.mk.inj (Option.some.inj hrun)
    exact (h₄.release List.not_mem_nil hrelease).release List.not_mem_nil hrelease'

theorem insert_same {place' : Place} {s₁ : Btree K D} {o : Option ℕ} (h : InMemory f [] s)
    (hf : f.rooted = true) (hlook : s.btreeLookupLevel env key 1 place = some (o, place', s₁))
    (hsize : place'.size = value.length)
    (hrun : s.btreeInsert env key value place = some (rc, s')) : InMemory f [] s' := by
  obtain ⟨r, hr⟩ := h.root hf
  have h₁ := h.lookupLevel hf hlook
  simp only [btreeInsert, hr, hlook, Option.bind_eq_bind, Option.bind_some, if_pos hsize] at hrun
  obtain ⟨node, -, hrun⟩ := Option.bind_eq_some_iff.mp hrun
  obtain ⟨page, -, hrun⟩ := Option.bind_eq_some_iff.mp hrun
  obtain ⟨s₂, hreplace, hrun⟩ := Option.bind_eq_some_iff.mp hrun
  obtain ⟨s₃, hrelease, hrun⟩ := Option.bind_eq_some_iff.mp hrun
  obtain ⟨rfl, rfl⟩ := Prod.mk.inj (Option.some.inj hrun)
  exact (h₁.leafInlineReplace hreplace).release List.not_mem_nil hrelease

/-! ## Removal -/

omit [LinearOrder K] in
theorem removed (h : InMemory f [] s) (hrun : s.btnodeRemove env x = some s') :
    InMemory f [] s' := by
  obtain ⟨node, hnode, hrun⟩ := Option.bind_eq_some_iff.mp hrun
  obtain rfl := Option.some.inj hrun
  have hdisk := (h.node x node hnode).1.onDisk
  simp only [hdisk, Bool.false_eq_true, if_false]
  refine ⟨h.frame, fun y node' hy => ?_⟩
  by_cases hyx : y = x
  · subst hyx
    simp [freeNode] at hy
  · simp only [freeNode, Function.update_of_ne hyx] at hy
    exact h.node y node' hy

omit [LinearOrder K] in
theorem dropNode (h : InMemory f [] s) (hrun : s.dropNode env level x = some s') :
    ∃ n m, InMemory (f.counted n m) [] s' := by
  obtain ⟨s₁, hremove, hrun⟩ := Option.bind_eq_some_iff.mp hrun
  have h₁ : ∃ n m, InMemory (f.counted n m) [] s₁ := by
    split_ifs at hremove
    · obtain ⟨page, leaf, slot, -, -, -, h₁⟩ := h.leafRemove hremove
      exact ⟨_, _, h₁⟩
    · exact ⟨_, _, h.twigRemove hremove⟩
  obtain ⟨n, m, h₁⟩ := h₁
  let s₂ : Btree K D :=
    { s₁ with super := { s₁.super with nodeCount := sub64 s₁.super.nodeCount 1 } }
  have h₂ : InMemory (f.counted n m) [] s₂ := h₁.congr rfl rfl
  exact ⟨n, m, h₂.removed hrun⟩

theorem removeNode {b : Bool} (h : InMemory f [] s) (hf : f.rooted = true)
    (hrun : btreeRemoveNode env fuel s x = some (b, s')) :
    ∃ n m, InMemory (f.counted n m) [] s' := by
  induction fuel generalizing f s x b s' with
  | zero => cases hrun
  | succ fuel ih =>
      have hwhole := hrun
      obtain ⟨last, hlast, hrun⟩ := Option.bind_eq_some_iff.mp hrun
      obtain ⟨page, hpage, hrun⟩ := Option.bind_eq_some_iff.mp hrun
      obtain ⟨⟨parent, place, s₁⟩, hlook, hrun⟩ := Option.bind_eq_some_iff.mp hrun
      have h₁ := h.lookupLevel hf hlook
      cases parent with
      | none =>
          dsimp only at hrun
          split_ifs at hrun
          · obtain ⟨s₂, hupdate, hrun⟩ := Option.bind_eq_some_iff.mp hrun
            obtain ⟨s₃, hremove, hrun⟩ := Option.bind_eq_some_iff.mp hrun
            obtain ⟨rfl, rfl⟩ := Prod.mk.inj (Option.some.inj hrun)
            exact ⟨_, _, (h₁.twigsRemoveUpdate hf hupdate).twigRemove hremove⟩
          · obtain ⟨rfl, rfl⟩ := Prod.mk.inj (Option.some.inj hrun)
            exact ⟨_, _, h₁⟩
      | some parent =>
          obtain ⟨ppage, hppage, -⟩ := Option.bind_eq_some_iff.mp hrun
          rw [removeNode_step env hlast hpage hlook hppage] at hwhole
          obtain ⟨⟨freed, s₂⟩, habove, hrun⟩ := Option.bind_eq_some_iff.mp hwhole
          have h₂ : ∃ n m, InMemory (f.counted n m) [] s₂ := by
            split_ifs at habove
            · exact ih h₁ hf habove
            · obtain ⟨t₁, hupdate, habove⟩ := Option.bind_eq_some_iff.mp habove
              obtain ⟨t₂, hremove, habove⟩ := Option.bind_eq_some_iff.mp habove
              obtain ⟨-, rfl⟩ := Prod.mk.inj (Option.some.inj habove)
              exact ⟨_, _, (h₁.twigsRemoveUpdate hf hupdate).twigRemove hremove⟩
          obtain ⟨n, m, h₂⟩ := h₂
          obtain ⟨s₃, hdrop, hrun⟩ := Option.bind_eq_some_iff.mp hrun
          obtain ⟨n', m', h₃⟩ := h₂.dropNode hdrop
          obtain ⟨s₄, hrelease, hrun⟩ := Option.bind_eq_some_iff.mp hrun
          obtain ⟨rfl, rfl⟩ := Prod.mk.inj (Option.some.inj hrun)
          refine ⟨n', m', ?_⟩
          split_ifs at hrelease
          · exact Option.some.inj hrelease ▸ h₃
          · exact h₃.release List.not_mem_nil hrelease

omit [LinearOrder K] in
theorem lowerRoot (h : InMemory f [] s) (hf : f.rooted = true)
    (hrun : s.lowerRoot env = some (rc, s')) : InMemory f [] s' := by
  obtain ⟨⟨o, s₁⟩, hfetch, hrun⟩ := Option.bind_eq_some_iff.mp hrun
  obtain ⟨r, -, rfl, h₁⟩ := h.fetchRoot hf hfetch
  obtain ⟨root, -, hrun⟩ := Option.bind_eq_some_iff.mp hrun
  obtain ⟨rpage, -, hrun⟩ := Option.bind_eq_some_iff.mp hrun
  split_ifs at hrun
  · obtain ⟨⟨o, s₂⟩, hchild, hrun⟩ := Option.bind_eq_some_iff.mp hrun
    obtain ⟨c, rfl, h₂⟩ := h₁.fetchTwig hchild
    obtain ⟨child, -, hrun⟩ := Option.bind_eq_some_iff.mp hrun
    obtain ⟨s₃, hremove, hrun⟩ := Option.bind_eq_some_iff.mp hrun
    obtain ⟨s₄, hrelease, hrun⟩ := Option.bind_eq_some_iff.mp hrun
    obtain ⟨rfl, rfl⟩ := Prod.mk.inj (Option.some.inj hrun)
    let t : Btree K D := { s₂ with
      root := some child,
      super := { s₂.super with
        height := (s₂.super.height + 2 ^ 8 - 1) % 2 ^ 8,
        nodeCount := sub64 s₂.super.nodeCount 1 } }
    have ht : InMemory f [] t := by
      refine ⟨?_, h₂.node⟩
      have hframe := h₂.frame
      rw [← hframe] at hf ⊢
      have hroot : s₂.root.isSome = true := hf
      simp only [t, Btree.frame, hroot, Option.isSome_some]
    have hremove' : t.btnodeRemove env root = some s₃ := hremove
    exact (ht.removed hremove').release List.not_mem_nil hrelease
  · obtain ⟨s₂, hrelease, hrun⟩ := Option.bind_eq_some_iff.mp hrun
    obtain ⟨rfl, rfl⟩ := Prod.mk.inj (Option.some.inj hrun)
    exact h₁.release List.not_mem_nil hrelease

theorem remove_hit {x : ℕ} {place : Place} {page : Page K} (h : InMemory f [] s)
    (hf : f.rooted = true)
    (hlook : s.btreeLookupLevel env key 1 noPlace = some (some x, place, s.addRef x 1))
    (hfound : place.found = true) (hp : s.page x = some page)
    (hrun : s.btreeRemove env key = some (rc, s')) :
    ∃ n m, InMemory (f.counted n m) [] s' := by
  have h₁ := h.addRef x 1
  rw [btreeRemove_hit env hlook hfound hp] at hrun
  split_ifs at hrun
  · obtain ⟨⟨freed, s₁⟩, hnode, hrun⟩ := Option.bind_eq_some_iff.mp hrun
    obtain ⟨n, m, h₂⟩ := h₁.removeNode hf hnode
    split_ifs at hrun
    exact ⟨n, m, h₂.lowerRoot hf hrun⟩
  · obtain ⟨s₁, hremove, hrun⟩ := Option.bind_eq_some_iff.mp hrun
    obtain ⟨page', leaf, slot, -, -, -, h₂⟩ := h₁.leafRemove hremove
    obtain ⟨s₂, hrelease, hrun⟩ := Option.bind_eq_some_iff.mp hrun
    obtain ⟨rfl, rfl⟩ := Prod.mk.inj (Option.some.inj hrun)
    exact ⟨_, _, h₂.release List.not_mem_nil hrelease⟩
  · obtain ⟨s₁, hupdate, hrun⟩ := Option.bind_eq_some_iff.mp hrun
    obtain ⟨s₂, hremove, hrun⟩ := Option.bind_eq_some_iff.mp hrun
    obtain ⟨page', leaf, slot, -, -, -, h₂⟩ := (h₁.twigsRemoveUpdate hf hupdate).leafRemove hremove
    obtain ⟨s₃, hrelease, hrun⟩ := Option.bind_eq_some_iff.mp hrun
    obtain ⟨rfl, rfl⟩ := Prod.mk.inj (Option.some.inj hrun)
    exact ⟨_, _, h₂.release List.not_mem_nil hrelease⟩

end InMemory

end Btree

end Carthage
