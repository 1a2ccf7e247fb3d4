import Carthage.BtreeCalls
import Carthage.BtreeSaved

/-!
# Closing and opening again

What calls have put into a tree is on disk when the tree is closed, and a handle that `btree_open`
makes of the disk finds it.
-/

namespace Carthage

theorem Cache.open_sound {K : Type} (P : ℕ → Page K → Prop) (size : ℕ) :
    (Cache.open size true true).Sound P := by
  by_cases hsize : size = 0
  · exact Or.inl (by rw [Cache.open, if_pos (Or.inl hsize)])
  · have hopen : Cache.open (K := K) size true true =
        ⟨size, 1, [0], fun _ => ⟨none, 0, none⟩, fun _ => none⟩ := by
      rw [Cache.open, if_neg (by simpa using hsize)]
      rfl
    rw [hopen]
    refine Or.inr ⟨⟨fun _ => [], hsize, by simp, by simp, fun _ => rfl, fun _ => List.nodup_nil,
      fun _ _ hi => by cases hi⟩, fun i page hp => by cases hp⟩

namespace Btree

variable {K D : Type} {env : BtreeEnv K D} {s s' b : Btree K D} {level x y : ℕ} {E : Prop}
  {L : List (K × List UInt8)} {store : DiskStore K D}

/-! ## Trees that were never written -/

theorem InMemory.children {f : Frame K D} {N : List ℕ} (h : InMemory f N s)
    {page : Page K} (hp : s.page x = some page) :
    (s.childNodes x).length = page.entries.length := by
  obtain ⟨node, hx, hdata⟩ := Option.bind_eq_some_iff.mp hp
  obtain ⟨page', children, unused, hdata', hptr, hlen⟩ := (h.node x node hx).1.block
  obtain rfl := Option.some.inj (hdata.symm.trans hdata')
  have hcut : (List.map some children ++ List.replicate unused none).reduceOption = children := by
    rw [List.reduceOption_append, List.reduceOption_replicate_none, List.append_nil,
      List.reduceOption, List.filterMap_map]
    exact List.filterMap_some
  rw [childNodes, hx, Option.bind_some, hptr, hcut, hlen]

theorem InMemory.tidy {f : Frame K D} {N : List ℕ} (h : InMemory f N s) : Tidy s :=
  fun _ _ hp => (h.children hp).le

theorem InMemory.unsaved {f : Frame K D} (h : InMemory f [] s) (hx : s.heap x ≠ none) :
    Unsaved s x := by
  obtain ⟨node, hx⟩ := Option.ne_none_iff_exists'.mp hx
  obtain ⟨hnode, hdirty⟩ := h.node x node hx
  exact ⟨node, hx, hdirty List.not_mem_nil, hnode.blocknr⟩

variable [LinearOrder K]

theorem Kept.unwritten (h : Kept E b s L) (hL : L ≠ []) (hcaching : b.cache.size ≠ 0)
    (hcache : b.cache.Good (Cacheable (store.pages b.disk)))
    (hplace : store.pages b.disk b.superOffset = none) :
    ∃ level r, Unwritten store s level r L := by
  obtain ⟨xs, above, hs⟩ := h.shape.resolve_left fun hno => hL hno.2.2
  obtain ⟨r, hroot, hsub⟩ := hs.index.subtree le_rfl hs.leaves
  have hlevels := hs.levels
  have htidy := h.memory.tidy
  refine ⟨1 + above.length, r, hroot, hsub, hL, hs.rising, ?_, by omega, fanout_lt h.created, htidy,
    fun y hy => ?_, h.quiet, ?_, ?_, ?_⟩
  · rw [hs.height, Nat.add_comm 1, Nat.add_assoc]
  · obtain ⟨l, I, hI, -⟩ := hsub.reached htidy hL hy
    obtain ⟨page, hp, -⟩ := hI.page
    obtain ⟨node, hx, -⟩ := Option.bind_eq_some_iff.mp hp
    exact h.memory.unsaved (by rw [hx]; exact Option.some_ne_none node)
  · rwa [h.cache]
  · rwa [h.cache, h.disk]
  · rwa [h.disk, h.superOffset]

variable {t : PageTree K} {v : View K}

/-! ## Looking up what was saved -/

/-- A call that changes nothing. -/
def Call.Reads : Call K → Prop
  | .lookup _ _ => True
  | _ => False

theorem Stored.runLookups (hg : ∀ n, env.granted n = true) (h : Stored env v s level t)
    (hL : t.Holds level L) (hs : Rising Prod.fst L) (hr : s.refs = 0) {cs : List (Call K)}
    (hcs : ∀ c ∈ cs, c.Reads) :
    ∃ v' s', s.runCalls env cs = some ((onMap (itemsOf L) cs).1, s') ∧
      Stored env v' s' level t ∧ s'.refs = 0 := by
  induction cs generalizing v s with
  | nil => exact ⟨v, s, rfl, h, hr⟩
  | cons c cs ih =>
      have hc := hcs c List.mem_cons_self
      cases c with
      | insert key value place => exact hc.elim
      | remove key => exact hc.elim
      | lookup key size =>
          obtain ⟨v₁, s₁, bytes, hfind, hrun, h₁, -, hrefs⟩ :=
            h.btreeLookup env (q := key) hr.ge (Or.inl hg) size
          rw [hL.find h.formed h.narrow hs] at hfind
          obtain rfl := Option.some.inj hfind
          obtain ⟨v', s', hruns, h', hr'⟩ := ih h₁ (hrefs.trans hr) fun c hc =>
            hcs c (List.mem_cons_of_mem _ hc)
          refine ⟨v', s', ?_, h', hr'⟩
          rw [runCalls, Call.run, hrun, Option.map_some, Option.bind_some, hruns]
          rfl

omit [LinearOrder K] in
theorem Saved.reopen (h : Saved env store s level t L) {reserved : ℕ}
    (hf : Faithful env store reserved) (hg : ∀ n, env.granted n = true) (cacheSize : ℕ) :
    ∃ s', btreeOpen env s.disk cacheSize s.superOffset s.super.magic s.super.nodeMagic =
        (0, some s') ∧ Stored env ⟨fun _ => none, store.pages s.disk⟩ s' level t ∧ s'.refs = 0 := by
  have hread := hf.read _ _ _ _ h.super
  obtain ⟨hmem, hformed, hnarrow, hlevels, hheight, hroot⟩ := h.stored
  have hdisk : OnDisk env (store.pages s.disk) s.disk s.rootPointer t := by
    rcases hroot with ⟨-, hdisk⟩ | ⟨r, hr, -⟩
    · exact hdisk
    · rw [h.root] at hr
      cases hr
  let s' : Btree K D :=
    { super := s.super, superOffset := s.superOffset,
      cache := Cache.open cacheSize (env.granted 0) (env.granted 1),
      disk := s.disk, root := none, heap := fun _ => none, refs := 0, fresh := 0, mallocs := 2 }
  refine ⟨s', ?_, ⟨⟨fun _ _ hx => (nomatch hx), ?_, fun _ _ => ⟨rfl, rfl⟩⟩, hformed, hnarrow, hlevels,
    hheight, Or.inl ⟨rfl, hdisk⟩⟩, rfl⟩
  · simp only [btreeOpen, hread, ne_eq, not_true_eq_false, if_false, s']
  · change (Cache.open cacheSize (env.granted 0) (env.granted 1)).Sound _
    rw [hg, hg]
    exact Cache.open_sound _ cacheSize

/-! ## From the creation to the next opening -/

theorem Unwritten.btreeClose {r : ℕ} (h : Unwritten store s level r L)
    (hf : Faithful env store s.superOffset) :
    ∃ s' t p, s.btreeClose env = some (0, s') ∧ Saved env store s' level t L ∧
      s'.super = s.super.rooted p := by
  obtain ⟨s', t, p, hsync, hsaved, hsuper, -⟩ := h.btreeSync hf
  refine ⟨s', t, p, ?_, hsaved, hsuper⟩
  simp only [Btree.btreeClose, hsync, hsaved.root, Option.bind_eq_bind, Option.bind_some,
    lt_irrefl, if_false, Option.pure_def]

theorem onMap_append (m : Items K) (cs cs' : List (Call K)) :
    onMap m (cs ++ cs') = ((onMap m cs).1 ++ (onMap (onMap m cs).2 cs').1,
      (onMap (onMap m cs).2 cs').2) := by
  induction cs generalizing m with
  | nil => rfl
  | cons c cs ih => rw [List.cons_append, onMap, onMap, ih, List.cons_append]

theorem runCalls_append {rs rs' : List Result} {cs cs' : List (Call K)} {s'' : Btree K D}
    (h : s.runCalls env cs = some (rs, s')) (h' : s'.runCalls env cs' = some (rs', s'')) :
    s.runCalls env (cs ++ cs') = some (rs ++ rs', s'') := by
  induction cs generalizing s rs with
  | nil =>
      obtain ⟨rfl, rfl⟩ := Prod.mk.inj (Option.some.inj h)
      exact h'
  | cons c cs ih =>
      obtain ⟨⟨r, s₁⟩, hstep, h⟩ := Option.bind_eq_some_iff.mp h
      obtain ⟨⟨rs₁, s₂⟩, hrest, heq⟩ := Option.map_eq_some_iff.mp h
      obtain ⟨rfl, rfl⟩ := Prod.mk.inj heq
      rw [List.cons_append, runCalls, hstep, Option.bind_some, ih hrest]
      rfl

/-- Calls that may insert, and then calls that may free nodes. -/
def AdmitsBoth (env : BtreeEnv K D) (b : Btree K D) (cs cs' : List (Call K)) : Prop :=
  AdmitsAll env True b noItems cs ∧ ∀ rs s, b.runCalls env cs = some (rs, s) →
    AdmitsAll env False s (onMap noItems cs).2 cs'

theorem Kept.runBoth (hg : ∀ n, env.granted n = true) (h : Kept True b b []) {cs cs' : List (Call K)}
    (hcs : AdmitsBoth env b cs cs') :
    ∃ s L, b.runCalls env (cs ++ cs') = some ((onMap noItems (cs ++ cs')).1, s) ∧
      Kept False b s L ∧ itemsOf L = (onMap noItems (cs ++ cs')).2 := by
  obtain ⟨hfirst, hsecond⟩ := hcs
  obtain ⟨s₁, L₁, hrun, hkept, hitems⟩ := h.runCalls hg hfirst
  have hnext := hsecond _ s₁ hrun
  change itemsOf L₁ = (onMap noItems cs).2 at hitems
  rw [← hitems] at hnext
  obtain ⟨s, L, hrun', hkept', hitems'⟩ := hkept.lax.runCalls hg hnext
  refine ⟨s, L, ?_, hkept', ?_⟩
  · rw [runCalls_append hrun hrun', onMap_append, ← hitems]
    rfl
  · rw [hitems', onMap_append, hitems]

variable {disk : D} {cacheSize superOffset blockSize keySize magic nodeMagic : ℕ}

theorem btreeCreate_unwritten (hg : ∀ n, env.granted n = true) (hkey : keySize < 2 ^ 16)
    (hblock : blockSize < 2 ^ 32) (hcaching : cacheSize ≠ 0)
    (hplace : store.pages disk superOffset = none)
    (hcreate : btreeCreate env disk cacheSize superOffset blockSize keySize magic nodeMagic = some b)
    {cs cs' : List (Call K)} (hcs : AdmitsBoth env b cs cs') {q : K}
    (hleft : (onMap noItems (cs ++ cs')).2 q ≠ none) :
    ∃ s L level r, b.runCalls env (cs ++ cs') = some ((onMap noItems (cs ++ cs')).1, s) ∧
      Unwritten store s level r L ∧ itemsOf L = (onMap noItems (cs ++ cs')).2 ∧
      s.superOffset = superOffset ∧ s.super.magic = magic ∧ s.super.nodeMagic = nodeMagic := by
  obtain ⟨-, hcache, hdisk, hoffset, hmagic, hnode⟩ := btreeCreate_eq hg hkey hblock hcreate
  obtain ⟨s, L, hrun, hkept, hitems⟩ :=
    (btreeCreate_kept hg hkey hblock hcreate).runBoth hg hcs
  have hL : L ≠ [] := by
    rintro rfl
    exact hleft (hitems ▸ rfl)
  have hsound : b.cache.Sound (Cacheable (store.pages b.disk)) :=
    hcache ▸ Cache.open_sound _ cacheSize
  have hsize : b.cache.size ≠ 0 := by
    rw [hcache, Cache.open, if_neg (by simpa using hcaching)]
    exact hcaching
  obtain ⟨level, r, hunwritten⟩ := hkept.unwritten hL hsize
    (hsound.resolve_left hsize) (by rw [hdisk, hoffset]; exact hplace)
  exact ⟨s, L, level, r, hrun, hunwritten, hitems, hkept.superOffset.trans hoffset,
    hkept.magic.trans hmagic, hkept.nodeMagic.trans hnode⟩

/-- The items that are left when a tree is closed are found when it is opened again. -/
theorem btreeClose_persists (hg : ∀ n, env.granted n = true) (hkey : keySize < 2 ^ 16)
    (hblock : blockSize < 2 ^ 32) (hcaching : cacheSize ≠ 0)
    (hf : Faithful env store superOffset) (hplace : store.pages disk superOffset = none)
    (hcreate : btreeCreate env disk cacheSize superOffset blockSize keySize magic nodeMagic = some b)
    {cs cs' : List (Call K)} (hcs : AdmitsBoth env b cs cs') {q : K}
    (hleft : (onMap noItems (cs ++ cs')).2 q ≠ none) :
    ∃ s s', b.runCalls env (cs ++ cs') = some ((onMap noItems (cs ++ cs')).1, s) ∧
      s.btreeClose env = some (0, s') ∧ ∀ cacheSize', ∃ s₁,
        btreeOpen env s'.disk cacheSize' s'.superOffset magic nodeMagic = (0, some s₁) ∧
        ∀ reads : List (Call K), (∀ c ∈ reads, c.Reads) → ∃ s₂,
          s₁.runCalls env reads = some ((onMap (onMap noItems (cs ++ cs')).2 reads).1, s₂) := by
  obtain ⟨s, L, level, r, hrun, hunwritten, hitems, rfl, rfl, rfl⟩ :=
    btreeCreate_unwritten hg hkey hblock hcaching hplace hcreate hcs hleft
  obtain ⟨s', t, p, hclose, hsaved, hsuper⟩ := hunwritten.btreeClose hf
  refine ⟨s, s', hrun, hclose, fun cacheSize' => ?_⟩
  obtain ⟨s₁, hopen, hstored, hrefs⟩ := hsaved.reopen hf hg cacheSize'
  rw [hsuper] at hopen
  refine ⟨s₁, hopen, fun reads hreads => ?_⟩
  obtain ⟨v', s₂, hruns, -⟩ :=
    hstored.runLookups hg hsaved.holds hunwritten.rising hrefs hreads
  exact ⟨s₂, hitems ▸ hruns⟩

/-! ## A file -/

/-- A file that is written at its end, behind the super block. -/
structure Drive where
  offset : ℕ
  regions : ℕ → Option (DiskBlock ℕ × ℕ)
  past : 512 < offset
  blank : ∀ b, offset ≤ b → regions b = none

namespace Drive

def put (d : Drive) (b : ℕ) (e : DiskBlock ℕ × ℕ) : Drive where
  offset := max (d.offset + e.2) (b + 1)
  regions := Function.update d.regions b (some e)
  past := lt_of_lt_of_le d.past (le_max_of_le_left (Nat.le_add_right _ _))
  blank c hc := by
    have hb : c ≠ b := by omega
    rw [Function.update_of_ne hb]
    exact d.blank c (by omega)

def new : Drive := ⟨576, fun _ => none, by decide, fun _ _ => rfl⟩

end Drive

def fileEnv : BtreeEnv ℕ Drive where
  granted _ := true
  uninit _ := 0
  write d b _ block size := if b = 0 then (d.offset, d.put d.offset (block, size))
    else (b, d.put b (block, size))
  read d b size := (d.regions b).bind fun e => if e.2 = size then some e.1 else none
  erase d _ _ := d
  crcPointer page _ := page.items
  crcBlock level _ size := level + size

theorem fileEnv_faithful : Faithful fileEnv Drive.regions 512 where
  append d n block size := by
    have hpast := d.past
    exact ⟨d.offset, d.put d.offset (block, size), rfl, by omega, by omega,
      d.blank d.offset le_rfl, rfl⟩
  rewrite d b block size hb := ⟨d.put b (block, size), if_neg hb, rfl⟩
  read d b block size h := by
    change (d.regions b).bind _ = _
    rw [h, Option.bind_some, if_pos rfl]

/-- A value is on disk after the tree was closed. -/
theorem btreeClose_persists_few : ∃ (b s s' s₁ s₂ : Btree ℕ Drive),
    btreeCreate fileEnv Drive.new 16 512 112 4 1 2 = some b ∧
      b.runCalls fileEnv fewCalls =
        some ([.inl 0, .inr [1], .inl 0, .inl 2, .inr [3, 4]], s) ∧
      s.btreeClose fileEnv = some (0, s') ∧
      btreeOpen fileEnv s'.disk 0 s'.superOffset 1 2 = (0, some s₁) ∧
      s₁.runCalls fileEnv [.lookup 5 8, .lookup 7 8, .lookup 5 1] =
        some ([.inr [3, 4], .inr [], .inr [3]], s₂) := by
  have hg : ∀ n, fileEnv.granted n = true := fun _ => rfl
  obtain ⟨b, hb⟩ : ∃ b, btreeCreate fileEnv Drive.new 16 512 112 4 1 2 = some b := ⟨_, rfl⟩
  have hcs : AdmitsBoth fileEnv b fewCalls [] := ⟨fewCalls_admitted hg hb, fun _ _ _ => trivial⟩
  have hleft : (onMap noItems (fewCalls ++ [])).2 5 ≠ none :=
    Option.some_ne_none ([3, 4] : List UInt8)
  obtain ⟨s, s', hrun, hclose, hopen⟩ := btreeClose_persists hg (by decide) (by decide) (by decide)
    fileEnv_faithful rfl hb hcs hleft
  obtain ⟨s₁, hopen, hreads⟩ := hopen 0
  obtain ⟨s₂, hreads⟩ := hreads [.lookup 5 8, .lookup 7 8, .lookup 5 1] (by simp [Call.Reads])
  exact ⟨b, s, s', s₁, s₂, hb, hrun, hclose, hopen, hreads⟩

end Btree

end Carthage
