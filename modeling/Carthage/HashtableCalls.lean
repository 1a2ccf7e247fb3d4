import Carthage.Hashtable

/-!
# What a hash table frees

Along every run the free functions are called on what leaves the table, when it leaves, and
freeing the table hands over the rest: every key that was stored and every value that entered
is freed once.
-/

namespace Carthage

variable {K V : Type} {args : HashtableArgs K V} {null : V} {t t' : Hashtable K V}
  {L M : List (K × V)} {key : K} {value : V}

/-- The pairs of a table, the keys it ever stored and the values that ever entered it. -/
structure HashtableLog (K V : Type) where
  pairs : List (K × V)
  keys : List K
  values : List V

/-- What the operations do to the log, with the calls of the free functions that they make. -/
inductive HashtableLogStep [DecidableEq V] (ops : KeyOps K) : HashtableLog K V →
    HashtableOp K V × HashtableRes K V × List (HashtableCall K V) → HashtableLog K V → Prop
  | insert (l : HashtableLog K V) (key : K) (value : V) : ops.find l.pairs key = none →
      HashtableLogStep ops l (.insert key value, .code 0, [])
        ⟨(key, value) :: l.pairs, l.keys ++ [key], l.values ++ [value]⟩
  | refuse (l : HashtableLog K V) (key : K) (value : V) (rc : ℤ) : rc ≠ 0 →
      ops.find l.pairs key = none → HashtableLogStep ops l (.insert key value, .code rc, []) l
  | replace (l : HashtableLog K V) (key k : K) (value old : V) (M : List (K × V)) :
      ops.keycmp k key = 0 → l.pairs.Perm ((k, old) :: M) → old ≠ value →
      HashtableLogStep ops l (.insert key value, .code 0, [.valueFree old])
        ⟨(k, value) :: M, l.keys, l.values ++ [value]⟩
  | keep (l : HashtableLog K V) (key k : K) (value : V) (M : List (K × V)) :
      ops.keycmp k key = 0 → l.pairs.Perm ((k, value) :: M) →
      HashtableLogStep ops l (.insert key value, .code 0, []) ⟨(k, value) :: M, l.keys, l.values⟩
  | remove (l : HashtableLog K V) (key k : K) (value : V) (M : List (K × V)) :
      ops.keycmp k key = 0 → l.pairs.Perm ((k, value) :: M) →
      HashtableLogStep ops l (.remove key, .code 0, [.keyFree k, .valueFree value])
        ⟨M, l.keys, l.values⟩
  | missing (l : HashtableLog K V) (key : K) (rc : ℤ) : rc ≠ 0 → ops.find l.pairs key = none →
      HashtableLogStep ops l (.remove key, .code rc, []) l
  | clear (l : HashtableLog K V) (calls : List (HashtableCall K V)) :
      calls.Perm (l.pairs.flatMap fun e => [.keyFree e.1, .valueFree e.2]) →
      HashtableLogStep ops l (.clear, .code 0, calls) ⟨[], l.keys, l.values⟩
  | contains (l : HashtableLog K V) (key : K) (res : HashtableRes K V) :
      HashtableLogStep ops l (.contains key, res, []) l
  | lookup (l : HashtableLog K V) (key : K) (res : HashtableRes K V) :
      HashtableLogStep ops l (.lookup key, res, []) l
  | size (l : HashtableLog K V) (res : HashtableRes K V) :
      HashtableLogStep ops l (.size, res, []) l
  | foreach (l : HashtableLog K V) (res : HashtableRes K V) :
      HashtableLogStep ops l (.foreach, res, []) l

/-- The key that an operation hands to the table. -/
def HashtableOp.keys : HashtableOp K V → List K
  | .insert key _ => [key]
  | _ => []

/-- The value that an operation hands to the table. -/
def HashtableOp.values : HashtableOp K V → List V
  | .insert _ value => [value]
  | _ => []

/-- An operation with the calls of the free functions that it makes. -/
def hashtableCallStep [DecidableEq V] (args : HashtableArgs K V) (null : V) (t : Hashtable K V)
    (op : HashtableOp K V) : Option ((HashtableRes K V × List (HashtableCall K V)) × Hashtable K V) := do
  let (res, t') ← hashtableStep args null t op
  return ((res, t'.calls.drop t.calls.length), t')

def keysFreed (calls : List (HashtableCall K V)) : List K :=
  calls.filterMap fun
    | .keyFree k => some k
    | .valueFree _ => none

def valuesFreed (calls : List (HashtableCall K V)) : List V :=
  calls.filterMap fun
    | .keyFree _ => none
    | .valueFree v => some v

/-- The table has the pairs of the log, and all else that it stored was freed, once. -/
structure HashtableOwns (args : HashtableArgs K V) (t : Hashtable K V) (l : HashtableLog K V) :
    Prop where
  holds : t.Holds args.ops l.pairs
  keys : (keysFreed t.calls ++ l.pairs.map Prod.fst).Perm l.keys
  values : (valuesFreed t.calls ++ l.pairs.map Prod.snd).Perm l.values

/-! ## Accounts -/

section Accounts

variable {ops : KeyOps K} {l l' : HashtableLog K V} {op : HashtableOp K V}
  {res : HashtableRes K V} {calls : List (HashtableCall K V)}

theorem keysFreed_append (c d : List (HashtableCall K V)) :
    keysFreed (c ++ d) = keysFreed c ++ keysFreed d := List.filterMap_append ..

theorem valuesFreed_append (c d : List (HashtableCall K V)) :
    valuesFreed (c ++ d) = valuesFreed c ++ valuesFreed d := List.filterMap_append ..

theorem keysFreed_pairs (L : List (K × V)) :
    keysFreed (L.flatMap fun e => [.keyFree e.1, .valueFree e.2]) = L.map Prod.fst := by
  induction L with
  | nil => rfl
  | cons e L ih =>
      rw [List.flatMap_cons, keysFreed_append, ih]
      rfl

theorem valuesFreed_pairs (L : List (K × V)) :
    valuesFreed (L.flatMap fun e => [.keyFree e.1, .valueFree e.2]) = L.map Prod.snd := by
  induction L with
  | nil => rfl
  | cons e L ih =>
      rw [List.flatMap_cons, valuesFreed_append, ih]
      rfl

variable [DecidableEq V]

theorem HashtableLogStep.keys (h : HashtableLogStep ops l (op, res, calls) l') :
    (keysFreed calls ++ l'.pairs.map Prod.fst ++ l.keys).Perm (l.pairs.map Prod.fst ++ l'.keys) := by
  cases h with
  | insert key value hf =>
      rw [← List.append_assoc]
      exact List.perm_append_singleton key _ |>.symm
  | refuse | missing | contains | lookup | size | foreach => exact List.Perm.refl _
  | replace key k value old M hk hM hne => exact (hM.map Prod.fst).symm.append_right _
  | keep key k value M hk hM => exact (hM.map Prod.fst).symm.append_right _
  | remove key k value M hk hM => exact (hM.map Prod.fst).symm.append_right _
  | clear calls hcalls =>
      have hfreed := hcalls.filterMap fun
        | .keyFree k => some k
        | .valueFree _ => none
      rw [← keysFreed, ← keysFreed, keysFreed_pairs] at hfreed
      rw [List.map_nil, List.append_nil]
      exact hfreed.append_right _

theorem HashtableLogStep.values (h : HashtableLogStep ops l (op, res, calls) l') :
    (valuesFreed calls ++ l'.pairs.map Prod.snd ++ l.values).Perm
      (l.pairs.map Prod.snd ++ l'.values) := by
  cases h with
  | insert key value hf =>
      rw [← List.append_assoc]
      exact List.perm_append_singleton value _ |>.symm
  | refuse | missing | contains | lookup | size | foreach => exact List.Perm.refl _
  | replace key k value old M hk hM hne =>
      have hold := (hM.map Prod.snd).symm.append_right (l.values ++ [value])
      refine List.Perm.trans ?_ hold
      rw [← List.append_assoc]
      refine List.Perm.trans ?_ (List.perm_append_singleton value _).symm
      exact List.Perm.swap value old _
  | keep key k value M hk hM => exact (hM.map Prod.snd).symm.append_right _
  | remove key k value M hk hM => exact (hM.map Prod.snd).symm.append_right _
  | clear calls hcalls =>
      have hfreed := hcalls.filterMap fun
        | .keyFree _ => none
        | .valueFree v => some v
      rw [← valuesFreed, ← valuesFreed, valuesFreed_pairs] at hfreed
      rw [List.map_nil, List.append_nil]
      exact hfreed.append_right _

theorem perm_account {α : Type} {freed before fresh after all all' : List α}
    (h : (freed ++ before).Perm all) (hstep : (fresh ++ after ++ all).Perm (before ++ all')) :
    (freed ++ fresh ++ after).Perm all' := by
  rw [← Multiset.coe_eq_coe] at h hstep ⊢
  simp only [← Multiset.coe_add] at h hstep ⊢
  apply add_right_cancel (b := (all : Multiset α))
  calc (freed : Multiset α) + fresh + after + all = freed + (fresh + after + all) := by abel
    _ = freed + before + all' := by rw [hstep, add_assoc]
    _ = all' + all := by rw [h, add_comm]

theorem HashtableOwns.step (h : HashtableOwns args t l) (hcalls : t'.calls = t.calls ++ calls)
    (h' : t'.Holds args.ops l'.pairs)
    (hstep : HashtableLogStep args.toKeyOps l (op, res, calls) l') : HashtableOwns args t' l' := by
  refine ⟨h', ?_, ?_⟩
  · rw [hcalls, keysFreed_append]
    exact perm_account h.keys hstep.keys
  · rw [hcalls, valuesFreed_append]
    exact perm_account h.values hstep.values

end Accounts

/-! ## Operations -/

theorem releases_pairs (hkey : args.keyFreeFunc = true) (hvalue : args.valueFreeFunc = true)
    (L : List (K × V)) : ChainTable.releases args.ops L =
      L.flatMap fun e => [.keyFree e.1, .valueFree e.2] := by
  unfold ChainTable.releases HashtableArgs.ops
  simp only [hkey, hvalue, if_true, List.singleton_append]

theorem hashtableFreePool_spec {p : Option ℕ} {free : List ℕ} {m : ℕ} (hch : t.Chain p free)
    (hnd : free.Nodup) (hm : free.length ≤ m) :
    ∃ t', hashtableFreePool m p t = some t' ∧ t'.calls = t.calls := by
  induction free generalizing t p m with
  | nil =>
      obtain rfl : p = none := hch
      exact ⟨t, by unfold hashtableFreePool; rfl, rfl⟩
  | cons a free ih =>
      obtain ⟨rfl, n, hn, hrest⟩ := hch
      rw [List.nodup_cons] at hnd
      obtain ⟨m, rfl⟩ : ∃ k, m = k + 1 := ⟨m - 1, by simp at hm; omega⟩
      let t₁ : Hashtable K V := { t with heap := Function.update t.heap a none }
      have hrest₁ : t₁.Chain n.next free := by
        apply hrest.congr_eq
        intro b hb
        have hne : b ≠ a := fun he => hnd.1 (he ▸ hb)
        exact Function.update_of_ne hne _ _
      obtain ⟨t', hfree, hcalls⟩ := ih (t := t₁) hrest₁ hnd.2 (Nat.le_of_succ_le_succ hm)
      refine ⟨t', ?_, hcalls⟩
      unfold hashtableFreePool
      simp only [hn, Option.bind_eq_bind, Option.bind_some]
      exact hfree

theorem hashtableFree_spec (hkey : args.keyFreeFunc = true) (hvalue : args.valueFreeFunc = true)
    (h : t.Holds args.ops L) : ∃ t' calls, hashtableFree args t = some t' ∧
      t'.calls = t.calls ++ calls ∧
      calls.Perm (L.flatMap fun e => [.keyFree e.1, .valueFree e.2]) := by
  obtain ⟨t₁, calls, hclear, ⟨cs, free, hat, -⟩, hcalls, hperm⟩ := h.clear
  rw [releases_pairs hkey hvalue] at hperm
  have hnd : free.Nodup := by
    have hall := (List.nodup_append.mp hat.linked.nodup).2.1
    rwa [List.append_nil] at hall
  obtain ⟨t', hpool, hcalls'⟩ := hashtableFreePool_spec hat.linked.pool hnd
    (hat.linked.length_le_fresh hat.linked.pool hnd)
  refine ⟨{ t' with bucket := [] }, calls, ?_, hcalls'.trans hcalls, hperm⟩
  simp only [hashtableFree, hashtableClear, hclear, hpool, Option.bind_eq_bind, Option.bind_some,
    Option.pure_def]

section Operations

variable [DecidableEq V] {l : HashtableLog K V}

theorem hashtableInsert_calls (hvalue : args.valueFreeFunc = true) (h : t.Holds args.ops l.pairs)
    (hg : t.GrowsBelow) (key : K) (value : V) : ∃ rc t' calls l',
      hashtableInsert args t key value = some (rc, t') ∧ t'.calls = t.calls ++ calls ∧
      t'.Holds args.ops l'.pairs ∧
      HashtableLogStep args.toKeyOps l (.insert key value, .code rc, calls) l' := by
  cases hf : args.find l.pairs key with
  | some e =>
      obtain ⟨M, hM⟩ := KeyOps.exists_perm_cons hf
      obtain ⟨s, a, n, hlook, hload, hn, rfl, hset⟩ := h.setPayload hf hM
      have hkey := (KeyOps.mem_of_find hf).2
      by_cases hne : n.payload ≠ value
      · refine ⟨0, _, [.valueFree n.payload], _, ?_, rfl, (hset value).calls _,
          .replace l key n.key value n.payload M hkey hM hne⟩
        simp only [hashtableInsert, hashnodeLookup, hlook, hload, hn, Option.bind_eq_bind,
          Option.bind_some, Option.pure_def, if_pos (And.intro hne hvalue)]
        rfl
      · rw [not_not] at hne
        subst hne
        refine ⟨0, t.setPayload a n n.payload, [], _, ?_, (List.append_nil _).symm, hset n.payload,
          .keep l key n.key n.payload M hkey hM⟩
        simp only [hashtableInsert, hashnodeLookup, hlook, hload, hn, Option.bind_eq_bind,
          Option.bind_some, Option.pure_def, ne_eq, not_true_eq_false, false_and, if_false]
  | none =>
      obtain ⟨s, hlook, hload⟩ := h.nodeLookup_absent hf
      obtain ⟨rc, t', hadd, hcalls, hres⟩ := h.addNode hf value (h.growTarget_small hg) hlook
      have hins : hashtableInsert args t key value = some (rc, t') := by
        simp only [hashtableInsert, hashnodeLookup, hlook, hload, Option.bind_eq_bind,
          Option.bind_some, hadd]
      rw [← List.append_nil t.calls] at hcalls
      rcases hres with ⟨rfl, h'⟩ | ⟨hrc, h'⟩
      · exact ⟨0, t', [], _, hins, hcalls, h', .insert l key value hf⟩
      · exact ⟨rc, t', [], l, hins, hcalls, h', .refuse l key value rc hrc hf⟩

theorem hashtableRemove_calls (hkey : args.keyFreeFunc = true) (hvalue : args.valueFreeFunc = true)
    (h : t.Holds args.ops l.pairs) (key : K) : ∃ rc t' calls l',
      hashtableRemove args t key = some (rc, t') ∧ t'.calls = t.calls ++ calls ∧
      t'.Holds args.ops l'.pairs ∧
      HashtableLogStep args.toKeyOps l (.remove key, .code rc, calls) l' := by
  cases hf : args.find l.pairs key with
  | some e =>
      obtain ⟨M, hM⟩ := KeyOps.exists_perm_cons hf
      obtain ⟨s, a, n, hlook, hload, -, -, t', hdrop, h', hcalls⟩ := h.dropNode hf hM
      have hreleased : args.ops.released e.1 e.2 = [.keyFree e.1, .valueFree e.2] := by
        unfold HashtableArgs.ops
        simp only [hkey, hvalue, if_true, List.singleton_append]
      rw [hreleased] at hcalls
      refine ⟨0, t', _, _, ?_, hcalls, h',
        .remove l key e.1 e.2 M (KeyOps.mem_of_find hf).2 hM⟩
      simp only [hashtableRemove, hashnodeLookup, hlook, hload, Option.bind_eq_bind,
        Option.bind_some, hdrop, Option.pure_def]
  | none =>
      obtain ⟨s, hlook, hload⟩ := h.nodeLookup_absent hf
      refine ⟨-1, t, [], l, ?_, (List.append_nil _).symm, h, .missing l key (-1) (by decide) hf⟩
      simp only [hashtableRemove, hashnodeLookup, hlook, hload, Option.bind_eq_bind,
        Option.bind_some, Option.pure_def]

variable (null) in
theorem hashtableCallStep_owns (hkey : args.keyFreeFunc = true) (hvalue : args.valueFreeFunc = true)
    (h : HashtableOwns args t l) (hg : t.GrowsBelow) (op : HashtableOp K V) : ∃ r t' l',
      hashtableCallStep args null t op = some (r, t') ∧
      HashtableLogStep args.toKeyOps l (op, r) l' ∧ HashtableOwns args t' l' := by
  have hmake : ∀ res t' calls l', hashtableStep args null t op = some (res, t') →
      t'.calls = t.calls ++ calls → t'.Holds args.ops l'.pairs →
      HashtableLogStep args.toKeyOps l (op, res, calls) l' → ∃ r t' l',
        hashtableCallStep args null t op = some (r, t') ∧
        HashtableLogStep args.toKeyOps l (op, r) l' ∧ HashtableOwns args t' l' := by
    intro res t' calls l' hstep hcalls h' hlog
    refine ⟨(res, calls), t', l', ?_, hlog, h.step hcalls h' hlog⟩
    unfold hashtableCallStep
    simp only [hstep, hcalls, List.drop_left, Option.bind_eq_bind, Option.bind_some,
      Option.pure_def]
  have hread : ∀ res, hashtableStep args null t op = some (res, t) →
      HashtableLogStep args.toKeyOps l (op, res, []) l → ∃ r t' l',
        hashtableCallStep args null t op = some (r, t') ∧
        HashtableLogStep args.toKeyOps l (op, r) l' ∧ HashtableOwns args t' l' :=
    fun res hstep hlog => hmake res t [] l hstep (List.append_nil _).symm h.holds hlog
  cases op with
  | insert key value =>
      obtain ⟨rc, t', calls, l', hins, hcalls, h', hlog⟩ :=
        hashtableInsert_calls hvalue h.holds hg key value
      exact hmake _ _ calls l' (by simp [hashtableStep, hins]) hcalls h' hlog
  | remove key =>
      obtain ⟨rc, t', calls, l', hrem, hcalls, h', hlog⟩ :=
        hashtableRemove_calls hkey hvalue h.holds key
      exact hmake _ _ calls l' (by simp [hashtableStep, hrem]) hcalls h' hlog
  | clear =>
      obtain ⟨t', calls, hclear, h', hcalls, hperm⟩ := h.holds.clear
      rw [releases_pairs hkey hvalue] at hperm
      exact hmake (.code 0) t' calls ⟨[], l.keys, l.values⟩
        (by simp [hashtableStep, hashtableClear, hclear]) hcalls h' (.clear l calls hperm)
  | contains key =>
      refine hread (.code (if (args.find l.pairs key).isSome then 1 else 0)) ?_ (.contains l key _)
      simp only [hashtableStep, hashtableContains_spec h.holds key, Option.bind_eq_bind,
        Option.bind_some, Option.pure_def]
  | lookup key =>
      refine hread (.value ((args.value l.pairs key).getD null)) ?_ (.lookup l key _)
      simp only [hashtableStep, hashtableLookup_spec h.holds key, Option.bind_eq_bind,
        Option.bind_some, Option.pure_def]
  | size => exact hread _ rfl (.size l _)
  | foreach =>
      obtain ⟨M, hM, -⟩ := h.holds.foreach
      exact hread (.visited M) (by simp [hashtableStep, hashtableForeach, hM]) (.foreach l _)

/-! ## Runs -/

theorem HashtableLogStep.sublist {l' : HashtableLog K V} {ops : KeyOps K} {op : HashtableOp K V}
    {r : HashtableRes K V × List (HashtableCall K V)} (h : HashtableLogStep ops l (op, r) l') :
    l'.keys.Sublist (l.keys ++ op.keys) ∧ l'.values.Sublist (l.values ++ op.values) := by
  have hkeys := List.sublist_append_left l.keys op.keys
  have hvalues := List.sublist_append_left l.values op.values
  cases h with
  | insert key value hf => exact ⟨List.Sublist.refl _, List.Sublist.refl _⟩
  | replace key k value old M hk hM hne => exact ⟨hkeys, List.Sublist.refl _⟩
  | refuse | keep | remove | missing | clear | contains | lookup | size | foreach =>
      exact ⟨hkeys, hvalues⟩

theorem hashtableLog_sublist {l' : HashtableLog K V} {ops : KeyOps K}
    {events : List (HashtableOp K V × HashtableRes K V × List (HashtableCall K V))}
    (h : Run (HashtableLogStep ops) l events l') :
    l'.keys.Sublist (l.keys ++ (events.map Prod.fst).flatMap HashtableOp.keys) ∧
      l'.values.Sublist (l.values ++ (events.map Prod.fst).flatMap HashtableOp.values) := by
  induction h with
  | nil l => exact ⟨List.sublist_append_left _ _, List.sublist_append_left _ _⟩
  | @cons _ _ _ event _ hstep _ ih =>
      obtain ⟨op, r⟩ := event
      obtain ⟨hkeys, hvalues⟩ := hstep.sublist
      rw [List.map_cons, List.flatMap_cons, List.flatMap_cons, ← List.append_assoc,
        ← List.append_assoc]
      exact ⟨ih.1.trans (hkeys.append_right _), ih.2.trans (hvalues.append_right _)⟩

theorem disjoint_account {α : Type} {freed before all given : List α}
    (h : (freed ++ before).Perm all) (hsub : all.Sublist given) (hnd : given.Nodup) :
    freed.Disjoint before :=
  List.disjoint_of_nodup_append (h.nodup_iff.mpr (hsub.nodup hnd))

/-- Every operation calls the free functions on just what leaves the table in it. What was
stored was freed once or is still in the table, and is freed once when the table is freed. -/
theorem hashtableRun_frees (hkey : args.keyFreeFunc = true) (hvalue : args.valueFreeFunc = true)
    {size : ℕ} {t₀ : Hashtable K V} (hsize : size ≤ 2 ^ 28)
    (halloc : hashtableAlloc args size = some (some t₀)) (ops : List (HashtableOp K V))
    (hops : Meets (hashtableCallStep args null) (fun t _ => t.GrowsBelow) t₀ ops) :
    ∃ rs t l t', runAll (hashtableCallStep args null) t₀ ops = some (rs, t) ∧
      Run (HashtableLogStep args.toKeyOps) ⟨[], [], []⟩ (ops.zip rs) l ∧
      (∃ M, hashtableForeach t = some M ∧ M.Perm l.pairs) ∧
      (keysFreed t.calls ++ l.pairs.map Prod.fst).Perm l.keys ∧
      (valuesFreed t.calls ++ l.pairs.map Prod.snd).Perm l.values ∧
      ((ops.flatMap HashtableOp.keys).Nodup →
        (keysFreed t.calls).Disjoint (l.pairs.map Prod.fst)) ∧
      ((ops.flatMap HashtableOp.values).Nodup →
        (valuesFreed t.calls).Disjoint (l.pairs.map Prod.snd)) ∧
      hashtableFree args t = some t' ∧
      (keysFreed t'.calls).Perm l.keys ∧ (valuesFreed t'.calls).Perm l.values := by
  obtain ⟨h₀, hcalls₀⟩ := ChainTable.create_holds hsize halloc
  have howns₀ : HashtableOwns args t₀ ⟨[], [], []⟩ := by
    refine ⟨h₀, ?_, ?_⟩
    · rw [hcalls₀]
      exact List.Perm.refl _
    · rw [hcalls₀]
      exact List.Perm.refl _
  obtain ⟨rs, t, l, hrun, hlen, hlog, h⟩ := runAll_simulates (HashtableOwns args)
    (HashtableLogStep args.toKeyOps)
    (fun _ _ op h hg => hashtableCallStep_owns null hkey hvalue h hg op) howns₀ hops
  obtain ⟨t', calls, hfree, hcalls, hperm⟩ := hashtableFree_spec hkey hvalue h.holds
  have hlast : HashtableLogStep args.toKeyOps l (.clear, .code 0, calls) ⟨[], l.keys, l.values⟩ :=
    .clear l calls hperm
  have hkeys := perm_account h.keys hlast.keys
  have hvalues := perm_account h.values hlast.values
  rw [← keysFreed_append, ← hcalls, List.map_nil, List.append_nil] at hkeys
  rw [← valuesFreed_append, ← hcalls, List.map_nil, List.append_nil] at hvalues
  obtain ⟨hsubk, hsubv⟩ := hashtableLog_sublist hlog
  rw [List.map_fst_zip (by omega), List.nil_append] at hsubk hsubv
  exact ⟨rs, t, l, t', hrun, hlog, h.holds.foreach, h.keys, h.values,
    disjoint_account h.keys hsubk, disjoint_account h.values hsubv, hfree, hkeys, hvalues⟩

end Operations

/-- Every allocation is granted. -/
def freeingTable : HashtableArgs ℕ ℕ where
  toKeyOps := numberKeys
  granted _ := true
  keyFreeFunc := true
  valueFreeFunc := true

theorem hashtableRun_frees_replaced : ∃ rs t l t',
    runAll (hashtableCallStep freeingTable 0) numberTable₀ [.insert 3 30, .insert 3 31] =
        some (rs, t) ∧
      Run (HashtableLogStep numberKeys) ⟨[], [], []⟩
        ([HashtableOp.insert 3 30, .insert 3 31].zip rs) l ∧
      (∃ M, hashtableForeach t = some M ∧ M.Perm l.pairs) ∧
      (keysFreed t.calls ++ l.pairs.map Prod.fst).Perm l.keys ∧
      (valuesFreed t.calls ++ l.pairs.map Prod.snd).Perm l.values ∧
      (([HashtableOp.insert 3 30, .insert 3 31].flatMap HashtableOp.keys).Nodup →
        (keysFreed t.calls).Disjoint (l.pairs.map Prod.fst)) ∧
      (([HashtableOp.insert 3 30, .insert 3 31].flatMap HashtableOp.values).Nodup →
        (valuesFreed t.calls).Disjoint (l.pairs.map Prod.snd)) ∧
      hashtableFree freeingTable t = some t' ∧
      (keysFreed t'.calls).Perm l.keys ∧ (valuesFreed t'.calls).Perm l.values := by
  have hlow : ∀ t : Hashtable ℕ ℕ, t.used ≤ t.size → t.GrowsBelow := fun t h hc =>
    absurd hc (Nat.not_lt.mpr (h.trans (Nat.le_add_right _ _)))
  have hsize : 0 ≤ 2 ^ 28 := Nat.zero_le _
  refine hashtableRun_frees rfl rfl hsize rfl _ ⟨hlow _ (by decide), ?_⟩
  rintro r t ⟨⟩
  exact ⟨hlow _ (by decide), fun _ _ _ => trivial⟩

/-! ## The limit on the buckets -/

theorem placeNode_granted (hg : ∀ i, args.granted i = true) {s : Slot} {rc : ℤ}
    (hplace : t.placeNode args.ops s key value = some (rc, t')) : rc = 0 ∧ t'.size = t.size := by
  have hstore : ∀ (t t' : Hashtable K V) q, t.store q s = some t' → t'.size = t.size := by
    intro t t' q hs
    cases s with
    | bucket i =>
        simp only [ChainTable.store] at hs
        split_ifs at hs
        obtain rfl := Option.some.inj hs
        rfl
    | next a =>
        simp only [ChainTable.store] at hs
        split_ifs at hs
        obtain rfl := Option.some.inj hs
        rfl
  have halloc : ∀ node t₁, t.nodeAlloc args.ops key value = some (node, t₁) →
      node ≠ none ∧ t₁.size = t.size := by
    intro node t₁ hn
    unfold ChainTable.nodeAlloc at hn
    split at hn
    · obtain ⟨n, -, hn⟩ := Option.bind_eq_some_iff.mp hn
      obtain ⟨rfl, rfl⟩ := Prod.mk.inj (Option.some.inj hn)
      exact ⟨Option.some_ne_none _, rfl⟩
    · have hok : args.ops.granted t.requests = true := hg t.requests
      simp only [ChainTable.request, hok, if_true] at hn
      obtain ⟨rfl, rfl⟩ := Prod.mk.inj (Option.some.inj hn)
      exact ⟨Option.some_ne_none _, rfl⟩
  unfold ChainTable.placeNode at hplace
  obtain ⟨⟨node, t₁⟩, hn, hplace⟩ := Option.bind_eq_some_iff.mp hplace
  obtain ⟨t₂, hs, hplace⟩ := Option.bind_eq_some_iff.mp hplace
  obtain ⟨hnode, hsize⟩ := halloc node t₁ hn
  cases node with
  | none => exact absurd rfl hnode
  | some a =>
      obtain ⟨rfl, rfl⟩ := Prod.mk.inj (Option.some.inj hplace)
      exact ⟨rfl, (hstore t₁ t₂ _ hs).trans hsize⟩

section Limit

variable [DecidableEq V]

theorem hashtableInsert_room (hg : ∀ i, args.granted i = true) (h : t.Holds args.ops L)
    (hf : args.find L key = none) (hroom : ¬ t.used > t.size + t.size >>> 3) (value : V) :
    ∃ t', hashtableInsert args t key value = some (0, t') ∧
      t'.Holds args.ops ((key, value) :: L) ∧ t'.size = t.size := by
  obtain ⟨s, hlook, hload⟩ := h.nodeLookup_absent hf
  obtain ⟨s', rc, t', hlook', hplace, -, hres⟩ := h.placeNode hf value
  obtain rfl := Option.some.inj (hlook.symm.trans hlook')
  obtain ⟨rfl, hsize⟩ := placeNode_granted hg hplace
  refine ⟨t', ?_, ?_, hsize⟩
  · simp only [hashtableInsert, hashnodeLookup, hlook, hload, ChainTable.addNode, if_neg hroom,
      Option.bind_eq_bind, Option.bind_some, hplace]
  · rcases hres with ⟨-, h'⟩ | ⟨hne, -⟩
    · exact h'
    · exact absurd rfl hne

theorem hashtableInsert_stuck (hg : ∀ i, args.granted i = true) (h : t.Holds args.ops L)
    (hf : args.find L key = none) (hfull : t.used > t.size + t.size >>> 3)
    (htarget : 2 ^ 29 ≤ nbucketRoundup t.growTarget) (value : V) :
    hashtableInsert args t key value = none := by
  obtain ⟨s, hlook, hload⟩ := h.nodeLookup_absent hf
  have hok : args.ops.granted t.requests = true := hg t.requests
  have hbig : ¬ 8 * nbucketRoundup t.growTarget < 2 ^ 32 := by omega
  simp only [hashtableInsert, hashnodeLookup, hlook, hload, ChainTable.addNode, if_pos hfull,
    ChainTable.resize, ChainTable.bucketAlloc, ChainTable.request, hok, if_true, if_neg hbig,
    Option.bind_eq_bind, Option.bind_some, Option.bind_none]

end Limit

theorem find_range (n : ℕ) :
    numberKeys.find ((List.range n).map fun k => (k, k)).reverse n = none := by
  apply KeyOps.find_eq_none.mpr
  intro e he
  rw [List.mem_reverse, List.mem_map] at he
  obtain ⟨k, hk, rfl⟩ := he
  rw [List.mem_range] at hk
  unfold numberKeys
  change (k : ℤ) - n ≠ 0
  omega

theorem hashtableRun_fills {t₀ : Hashtable ℕ ℕ} (h₀ : t₀.Holds freeingTable.ops [])
    (hsize : t₀.size = 2 ^ 28) (n : ℕ) (hn : n ≤ 2 ^ 28 + 2 ^ 25 + 1) : ∃ rs t,
      runAll (hashtableStep freeingTable 0) t₀ ((List.range n).map fun k => .insert k k) =
        some (rs, t) ∧
      t.Holds freeingTable.ops ((List.range n).map fun k => (k, k)).reverse ∧ t.size = 2 ^ 28 := by
  induction n with
  | zero => exact ⟨[], t₀, rfl, h₀, hsize⟩
  | succ n ih =>
      obtain ⟨rs, t, hrun, h, hs⟩ := ih (by omega)
      have hused := h.used_eq
      rw [List.length_reverse, List.length_map, List.length_range] at hused
      have hroom : ¬ t.used > t.size + t.size >>> 3 := by
        rw [hs, hused]
        norm_num
        omega
      obtain ⟨t', hins, h', hs'⟩ := hashtableInsert_room (fun _ => rfl) h (find_range n) hroom n
      refine ⟨rs ++ [.code 0], t', ?_, ?_, hs'.trans hs⟩
      · rw [List.range_succ, List.map_append, runAll_append, hrun]
        simp only [List.map_cons, List.map_nil, runAll, hashtableStep, hins, Option.bind_eq_bind,
          Option.bind_some, Option.pure_def, Option.map_some]
      · rw [List.range_succ, List.map_append, List.reverse_append]
        exact h'

/-- The table of 2^28 buckets that holds 2^28 + 2^25 + 1 keys asks for 2^29 buckets at the next
one, and clears an array that is larger than its block. -/
theorem hashtableRun_overflows : ∃ t₀, hashtableAlloc freeingTable (2 ^ 28) = some (some t₀) ∧
    runAll (hashtableStep freeingTable 0) t₀
      ((List.range (2 ^ 28 + 2 ^ 25 + 2)).map fun k => .insert k k) = none := by
  have hround : nbucketRoundup (2 ^ 28) = 2 ^ 28 := by decide +kernel
  rcases ChainTable.create_spec freeingTable.ops (s := 2 ^ 28) (by rw [hround]; norm_num)
      (by norm_num) with ⟨hno, -⟩ | ⟨t₀, halloc, ⟨h₀, -⟩, hsize⟩
  · cases hno
  refine ⟨t₀, halloc, ?_⟩
  obtain ⟨rs, t, hrun, h, hs⟩ := hashtableRun_fills h₀ (hsize.trans hround) _ le_rfl
  have hused := h.used_eq
  rw [List.length_reverse, List.length_map, List.length_range] at hused
  have hfull : t.used > t.size + t.size >>> 3 := by
    rw [hs, hused]
    decide +kernel
  have htarget : 2 ^ 29 ≤ nbucketRoundup t.growTarget := by
    have hgrow : t.growTarget = 2 ^ 29 := by
      unfold ChainTable.growTarget
      rw [hs]
      norm_num
    rw [hgrow]
    decide +kernel
  have hstuck := hashtableInsert_stuck (fun _ => rfl) h (find_range (2 ^ 28 + 2 ^ 25 + 1)) hfull
    htarget (2 ^ 28 + 2 ^ 25 + 1)
  rw [show 2 ^ 28 + 2 ^ 25 + 2 = (2 ^ 28 + 2 ^ 25 + 1) + 1 from rfl, List.range_succ,
    List.map_append, runAll_append, hrun]
  simp only [List.map_cons, List.map_nil, runAll, hashtableStep, hstuck, Option.bind_eq_bind,
    Option.bind_some, Option.bind_none, Option.map_none]

end Carthage
