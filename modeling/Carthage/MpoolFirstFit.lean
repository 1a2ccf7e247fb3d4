import Carthage.MpoolAlloc

/-!
# First fit

The runs of free chunks that a pool's user sees, merged or not: an allocation hands out the
start of the first maximal run that is large enough, and refuses when there is none.
-/

namespace Carthage

variable {m m' : Mpool} {size p q n k N : ℕ} {cs pre run post : List (Bool × ℕ)}

def payload (run : List (Bool × ℕ)) : ℕ := (run.map Prod.snd).sum + 4 * (run.length - 1)

/-- `run` is a maximal run of free chunks, behind `pre` and before `post`. -/
structure FreeRun (cs pre run post : List (Bool × ℕ)) : Prop where
  eq : cs = pre ++ (run ++ post)
  ne : run ≠ []
  free : ∀ c ∈ run, c.1 = false
  before : ∀ c, pre.getLast? = some c → c.1 = true
  behind : ∀ c, post.head? = some c → c.1 = true

/-- `run` is the first of the maximal runs that hold `size` bytes. -/
structure FirstRun (size : ℕ) (cs pre run post : List (Bool × ℕ)) : Prop
    extends FreeRun cs pre run post where
  enough : size ≤ payload run
  first : ∀ pre' run' post', FreeRun cs pre' run' post' → size ≤ payload run' →
    extent pre ≤ extent pre'

/-- `part` is as much of a run, from its first chunk on, as is merged for `size` bytes. -/
structure MergedPart (size : ℕ) (part run : List (Bool × ℕ)) : Prop where
  start : part <+: run
  ne : part ≠ []
  enough : size ≤ payload part
  least : ∀ y, y <+: run → y ≠ [] → size ≤ payload y → part.length ≤ y.length

theorem extent_eq_sum (cs : List (Bool × ℕ)) :
    extent cs = (cs.map Prod.snd).sum + 4 * cs.length := by
  induction cs with
  | nil => rfl
  | cons c cs ih =>
      obtain ⟨used, n⟩ := c
      rw [extent_cons, ih, List.map_cons, List.sum_cons, List.length_cons]
      omega

theorem payload_cons (used : Bool) (n : ℕ) (cs : List (Bool × ℕ)) :
    payload ((used, n) :: cs) = n + extent cs := by
  rw [extent_eq_sum, payload, List.map_cons, List.sum_cons, List.length_cons,
    Nat.add_sub_cancel, Nat.add_assoc]

theorem payload_append_le {x y : List (Bool × ℕ)} (hx : x ≠ []) : payload x ≤ payload (x ++ y) := by
  cases x with
  | nil => exact absurd rfl hx
  | cons c x =>
      obtain ⟨used, n⟩ := c
      rw [List.cons_append, payload_cons, payload_cons, extent_append]
      omega

/-! ## Where the maximal runs are -/

theorem getLast?_behind {x : List (Bool × ℕ)} (c : Bool × ℕ) (hx : x ≠ []) :
    (c :: x).getLast? = x.getLast? := by
  cases x with
  | nil => exact absurd rfl hx
  | cons d x => exact List.getLast?_cons_cons

theorem FreeRun.behind_used (x : List (Bool × ℕ)) (k : ℕ) (h : FreeRun cs pre run post) :
    FreeRun (x ++ (true, k) :: cs) (x ++ (true, k) :: pre) run post := by
  refine ⟨?_, h.ne, h.free, fun c hc => ?_, h.behind⟩
  · rw [h.eq, List.append_assoc, List.cons_append]
  · rw [List.getLast?_append_of_ne_nil _ (List.cons_ne_nil _ _)] at hc
    by_cases hpre : pre = []
    · rw [hpre, List.getLast?_singleton] at hc
      rw [← Option.some.inj hc]
    · rw [getLast?_behind _ hpre] at hc
      exact h.before c hc

theorem free_of_append {x y : List (Bool × ℕ)} (h : ∀ c ∈ x ++ y, c.1 = false) :
    (∀ c ∈ x, c.1 = false) ∧ ∀ c ∈ y, c.1 = false :=
  ⟨fun c hc => h c (List.mem_append_left _ hc), fun c hc => h c (List.mem_append_right _ hc)⟩

theorem eq_nil_of_last {x : List (Bool × ℕ)} (h : ∀ c ∈ x, c.1 = false)
    (hlast : ∀ c, x.getLast? = some c → c.1 = true) : x = [] := by
  by_contra hne
  have hmem := List.getLast_mem hne
  have hfree := h _ hmem
  rw [hlast _ (List.getLast?_eq_some_getLast hne)] at hfree
  cases hfree

theorem eq_nil_of_head {x : List (Bool × ℕ)} (h : ∀ c ∈ x, c.1 = false)
    (hhead : ∀ c, x.head? = some c → c.1 = true) : x = [] := by
  cases x with
  | nil => rfl
  | cons c x =>
      have hfree := h c List.mem_cons_self
      rw [hhead c rfl] at hfree
      cases hfree

theorem FreeRun.whole {y : List (Bool × ℕ)} (h : FreeRun y pre run post)
    (hy : ∀ c ∈ y, c.1 = false) : pre = [] ∧ run = y ∧ post = [] := by
  rw [h.eq] at hy
  obtain ⟨hpre, hrest⟩ := free_of_append hy
  obtain ⟨-, hpost⟩ := free_of_append hrest
  obtain rfl := eq_nil_of_last hpre h.before
  obtain rfl := eq_nil_of_head hpost h.behind
  refine ⟨rfl, ?_, rfl⟩
  rw [h.eq, List.nil_append, List.append_nil]

theorem FreeRun.front {y : List (Bool × ℕ)} (h : FreeRun (y ++ (true, k) :: cs) pre run post)
    (hy : ∀ c ∈ y, c.1 = false) :
    pre = [] ∧ run = y ∨ ∃ pre', pre = y ++ (true, k) :: pre' ∧ FreeRun cs pre' run post := by
  rcases List.append_eq_append_iff.mp h.eq with ⟨z, hpre, hz⟩ | ⟨z, hyz, hz⟩
  · cases z with
    | nil =>
        cases run with
        | nil => exact absurd rfl h.ne
        | cons c run =>
            obtain ⟨rfl, -⟩ := List.cons.inj hz
            cases h.free _ List.mem_cons_self
    | cons c z =>
        obtain ⟨rfl, htail⟩ := List.cons.inj hz
        refine Or.inr ⟨z, hpre, htail, h.ne, h.free, fun c hc => ?_, h.behind⟩
        have hne : z ≠ [] := by
          rintro rfl
          cases hc
        apply h.before c
        rw [hpre, List.getLast?_append_of_ne_nil _ (List.cons_ne_nil _ _), getLast?_behind _ hne, hc]
  · left
    rw [hyz] at hy
    obtain ⟨hpre, hzfree⟩ := free_of_append hy
    obtain rfl := eq_nil_of_last hpre h.before
    obtain rfl : y = z := hyz
    refine ⟨rfl, ?_⟩
    rcases List.append_eq_append_iff.mp hz with ⟨w, hw, hpost⟩ | ⟨w, hrun, hw⟩
    · cases w with
      | nil => rw [hw, List.append_nil]
      | cons c w =>
          have hused := h.behind c (by rw [hpost]; rfl)
          rw [hzfree c (by rw [hw]; simp)] at hused
          cases hused
    · cases w with
      | nil => rw [hrun, List.append_nil]
      | cons c w =>
          obtain ⟨rfl, -⟩ := List.cons.inj hw
          cases h.free (true, k) (by rw [hrun]; simp)

theorem exists_freeRun {x : List (Bool × ℕ)} (hx : ∀ c ∈ x, c.1 = false) (hne : x ≠ [])
    (cs : List (Bool × ℕ)) : ∃ y post, FreeRun (x ++ cs) [] (x ++ y) post := by
  refine ⟨cs.takeWhile fun c => !c.1, cs.dropWhile fun c => !c.1, ?_, ?_, ?_, ?_, ?_⟩
  · rw [List.nil_append, List.append_assoc, List.takeWhile_append_dropWhile]
  · exact fun hnil => hne (List.append_eq_nil_iff.mp hnil).1
  · intro c hc
    rcases List.mem_append.mp hc with hc | hc
    · exact hx c hc
    · simpa using List.all_eq_true.mp List.all_takeWhile c hc
  · exact fun c hc => nomatch hc
  · intro c hc
    have hhead := List.head?_dropWhile_not (fun c : Bool × ℕ => !c.1) cs
    rw [hc] at hhead
    simpa using hhead

/-! ## Scans and runs -/

theorem ScanEnds.small_runs (h : ScanEnds size p cs none) (hrun : FreeRun cs pre run post) :
    payload run < size := by
  generalize hr : (none : Option (ℕ × ℕ)) = r at h
  induction h generalizing pre with
  | done p =>
      have hnil := (List.append_eq_nil_iff.mp hrun.eq.symm).2
      exact absurd (List.append_eq_nil_iff.mp hnil).1 hrun.ne
  | used _ ih =>
      rcases FreeRun.front (y := []) hrun (by simp) with ⟨-, hnil⟩ | ⟨pre', -, hrun'⟩
      · exact absurd hnil hrun.ne
      · exact ih hrun' hr
  | fits _ _ _ _ => cases hr
  | @small p n k gone cs r hgone hs _ ih =>
      have hfree : ∀ c ∈ (false, n) :: gone, c.1 = false := List.forall_mem_cons.mpr ⟨rfl, hgone⟩
      rcases FreeRun.front hrun hfree with ⟨-, rfl⟩ | ⟨pre', -, hrun'⟩
      · rwa [payload_cons]
      · exact ih hrun' hr
  | full hgone hs =>
      obtain ⟨-, rfl, -⟩ := hrun.whole (List.forall_mem_cons.mpr ⟨rfl, hgone⟩)
      rwa [payload_cons]

theorem FirstRun.behind_used {x : List (Bool × ℕ)} (h : FirstRun size cs pre run post)
    (hx : ∀ c ∈ x, c.1 = false) (hsmall : x ≠ [] → payload x < size) (k : ℕ) :
    FirstRun size (x ++ (true, k) :: cs) (x ++ (true, k) :: pre) run post := by
  refine ⟨h.toFreeRun.behind_used x k, h.enough, ?_⟩
  intro pre' run' post' hrun' henough
  rcases hrun'.front hx with ⟨-, rfl⟩ | ⟨pre'', rfl, hrun''⟩
  · have hlt := hsmall hrun'.ne
    omega
  · have hle := h.first pre'' run' post' hrun'' henough
    rw [extent_append, extent_append, extent_cons, extent_cons]
    omega

/-- A scan that finds a chunk has found the first run that is large enough, and has merged as
little of it as it could. -/
theorem ScanEnds.first_run (h : ScanEnds size p cs (some (q, N))) :
    ∃ pre run post part, FirstRun size cs pre run post ∧ MergedPart size part run ∧
      q = p + extent pre ∧ N = payload part := by
  generalize hr : some (q, N) = r at h
  induction h with
  | done p => cases hr
  | used _ ih =>
      obtain ⟨pre, run, post, part, hfirst, hpart, rfl, hN⟩ := ih hr
      refine ⟨_, run, post, part, hfirst.behind_used (x := []) (by simp) (fun hc => absurd rfl hc) _,
        hpart, ?_, hN⟩
      rw [List.nil_append, extent_cons]
      omega
  | @fits p n gone cs hgone hmin hs =>
      obtain ⟨rfl, rfl⟩ := Prod.mk.inj (Option.some.inj hr)
      have hfree : ∀ c ∈ (false, n) :: gone, c.1 = false := List.forall_mem_cons.mpr ⟨rfl, hgone⟩
      obtain ⟨y, post, hrun⟩ := exists_freeRun hfree (List.cons_ne_nil _ _) cs
      have hpart : size ≤ payload ((false, n) :: gone) := by rwa [payload_cons]
      refine ⟨[], _, post, (false, n) :: gone, ⟨hrun, ?_, fun _ _ _ _ _ => Nat.zero_le _⟩,
        ⟨List.prefix_append _ _, List.cons_ne_nil _ _, hpart, ?_⟩, rfl, (payload_cons _ _ _).symm⟩
      · exact hpart.trans (payload_append_le (List.cons_ne_nil _ _))
      · intro u hu hne henough
        by_contra hlt
        have hstart : u <+: (false, n) :: gone :=
          List.prefix_of_prefix_length_le hu (List.prefix_append _ _) (by omega)
        obtain ⟨v, hv⟩ := hstart
        cases v with
        | nil =>
            rw [← hv, List.append_nil] at hlt
            exact hlt le_rfl
        | cons c v =>
            cases u with
            | nil => exact hne rfl
            | cons d u =>
                obtain ⟨rfl, htail⟩ := List.cons.inj hv
                have hless := hmin u c v htail.symm
                rw [payload_cons] at henough
                omega
  | @small p n k gone cs r hgone hs _ ih =>
      obtain ⟨pre, run, post, part, hfirst, hpart, rfl, hN⟩ := ih hr
      have hfree : ∀ c ∈ (false, n) :: gone, c.1 = false := List.forall_mem_cons.mpr ⟨rfl, hgone⟩
      refine ⟨_, run, post, part, hfirst.behind_used hfree (fun _ => by rwa [payload_cons]) k,
        hpart, ?_, hN⟩
      rw [extent_append, extent_cons, extent_cons]
      omega
  | full _ _ => cases hr

/-! ## Allocations -/

/-- No maximal run of free chunks holds `size` bytes. -/
def NoRun (size : ℕ) (cs : List (Bool × ℕ)) : Prop :=
  ∀ pre run post, FreeRun cs pre run post → payload run < size

/-- What is merged of the first run that is large enough is taken whole, or leaves room for a
header. -/
def FitsFirst (size : ℕ) (cs : List (Bool × ℕ)) : Prop :=
  ∀ pre run post part, FirstRun size cs pre run post → MergedPart size part run →
    payload part = size ∨ size + 4 ≤ payload part

theorem NoRun.fitsFirst (h : NoRun size cs) : FitsFirst size cs := by
  intro pre run post part hfirst _
  have hlt := h pre run post hfirst.toFreeRun
  have hle := hfirst.enough
  omega

theorem FreeRun.last {x : List (Bool × ℕ)} (hx : ∀ c ∈ x, c.1 = true)
    (h : FreeRun (x ++ [(false, n)]) pre run post) : run = [(false, n)] := by
  induction x generalizing pre with
  | nil => exact (h.whole (by simp)).2.1
  | cons c x ih =>
      obtain ⟨used, k⟩ := c
      obtain rfl : used = true := hx _ List.mem_cons_self
      rcases FreeRun.front (y := []) h (by simp) with ⟨-, hnil⟩ | ⟨pre', -, h'⟩
      · exact absurd hnil h.ne
      · exact ih (fun c hc => hx c (List.mem_cons_of_mem _ hc)) h'

theorem fitsFirst_last {x : List (Bool × ℕ)} (hcs : cs = x ++ [(false, n)])
    (hx : ∀ c ∈ x, c.1 = true) (hn : n = size ∨ size + 4 ≤ n) : FitsFirst size cs := by
  subst hcs
  intro pre run post part hfirst hpart
  obtain rfl := hfirst.toFreeRun.last hx
  have hle := hpart.start.length_le
  have hpos := List.length_pos_iff.mpr hpart.ne
  rw [List.length_singleton] at hle
  obtain rfl := hpart.start.eq_of_length (by rw [List.length_singleton]; omega)
  rwa [payload_cons, show extent [] = 0 from rfl, Nat.add_zero]

theorem ScanEnds.none_iff {r : Option (ℕ × ℕ)} (h : ScanEnds size p cs r) :
    r = none ↔ NoRun size cs := by
  cases r with
  | none => exact iff_of_true rfl fun pre run post hrun => h.small_runs hrun
  | some x =>
      obtain ⟨q, N⟩ := x
      refine iff_of_false (fun hc => nomatch hc) fun hsmall => ?_
      obtain ⟨pre, run, post, -, hfirst, -⟩ := h.first_run
      have hlt := hsmall pre run post hfirst.toFreeRun
      have hle := hfirst.enough
      omega

theorem mpoolAlloc_spec (h : m.TiledBy cs) (hfit : FitsFirst size cs) :
    ∃ r m' cs', mpoolAlloc m size = some (r, m') ∧ m.Becomes m' cs' (usedBlocks 0 cs) ∧
      (m.free = freeBytes cs → m'.free = freeBytes cs') ∧
      (4 ∣ size → Aligned cs → Aligned cs') ∧
      ((r = none ∧ NoRun size cs ∧ usedBlocks 0 cs' = usedBlocks 0 cs) ∨
      (∃ b A B, r = some b ∧ ¬ NoRun size cs ∧ usedBlocks 0 cs = A ++ B ∧
        usedBlocks 0 cs' = A ++ (b, size) :: B)) := by
  obtain ⟨r, m₁, cs₁, -, halloc, hbec, hblocks, hfree, halign, hends, hat⟩ :=
    mpoolAlloc_scan h size
  have hnone := hends.none_iff
  rw [halloc]
  cases r with
  | none =>
      exact ⟨none, m₁, cs₁, rfl, hbec, hfree, fun _ => halign,
        Or.inl ⟨rfl, hnone.mp rfl, hblocks⟩⟩
  | some x =>
      obtain ⟨q, N⟩ := x
      obtain ⟨A, B, rfl, rfl⟩ := hat q N rfl
      obtain ⟨pre, run, post, part, hfirst, hpart, -, rfl⟩ := hends.first_run
      obtain ⟨m', cs', htake, hbec', hused, hfree', halign'⟩ :=
        mpoolTake_spec hbec.tiled (hfit pre run post part hfirst hpart)
      rw [hblocks] at hbec'
      refine ⟨_, m', cs', htake, ⟨hbec'.size.trans hbec.size, hbec'.tiled,
        hbec.keeps.trans hbec'.keeps⟩, fun hm => hfree' (hfree hm),
        fun hd ha => halign' hd (halign ha), Or.inr ⟨_, _, _, rfl, ?_, ?_, hused⟩⟩
      · exact fun hno => nomatch hnone.mpr hno
      · rw [← hblocks, usedBlocks_free]

/-! ## The first run is the only one -/

theorem eq_of_extent {x y : List (Bool × ℕ)} (h : x <+: y) (hext : extent y ≤ extent x) :
    x = y := by
  obtain ⟨z, rfl⟩ := h
  cases z with
  | nil => rw [List.append_nil]
  | cons c z =>
      obtain ⟨used, n⟩ := c
      rw [extent_append, extent_cons] at hext
      omega

theorem FreeRun.run_eq {run' post' : List (Bool × ℕ)} (h : FreeRun cs pre run post)
    (h' : FreeRun cs pre run' post') : run = run' := by
  have heq : run ++ post = run' ++ post' := List.append_cancel_left (h.eq.symm.trans h'.eq)
  rcases List.append_eq_append_iff.mp heq with ⟨z, hrun, hpost⟩ | ⟨z, hrun, hpost⟩
  · cases z with
    | nil => rw [hrun, List.append_nil]
    | cons c z =>
        have hused := h.behind c (by rw [hpost]; rfl)
        rw [h'.free c (by rw [hrun]; simp)] at hused
        cases hused
  · cases z with
    | nil => rw [hrun, List.append_nil]
    | cons c z =>
        have hused := h'.behind c (by rw [hpost]; rfl)
        rw [h.free c (by rw [hrun]; simp)] at hused
        cases hused

theorem FirstRun.start_eq {pre' run' post' : List (Bool × ℕ)} (h : FirstRun size cs pre run post)
    (h' : FirstRun size cs pre' run' post') : pre = pre' := by
  have hle := h.first pre' run' post' h'.toFreeRun h'.enough
  have hge := h'.first pre run post h.toFreeRun h.enough
  have hpre : pre <+: cs := ⟨_, h.eq.symm⟩
  have hpre' : pre' <+: cs := ⟨_, h'.eq.symm⟩
  rcases List.prefix_or_prefix_of_prefix hpre hpre' with hin | hin
  · exact eq_of_extent hin hge
  · exact (eq_of_extent hin hle).symm

theorem MergedPart.part_eq {part part' : List (Bool × ℕ)} (h : MergedPart size part run)
    (h' : MergedPart size part' run) : part = part' := by
  have hle := h.least part' h'.start h'.ne h'.enough
  have hge := h'.least part h.start h.ne h.enough
  exact (List.prefix_of_prefix_length_le h.start h'.start hle).eq_of_length (by omega)

/-! ## What allocations hand out -/

/-- An allocation returns, refuses exactly when no maximal run of free chunks is large enough,
and else hands out the start of the first that is. Unless that leaves one to three bytes, it
stores in no block in use and leaves the region tiled. -/
def AllocatesFirst (m : Mpool) (cs : List (Bool × ℕ)) (size : ℕ) : Prop :=
  ∃ r m', mpoolAlloc m size = some (r, m') ∧ (r = none ↔ NoRun size cs) ∧
    ∀ b, r = some b → ∃ pre run post part, FirstRun size cs pre run post ∧
      MergedPart size part run ∧ b = extent pre + 4 ∧
      (payload part = size ∨ size + 4 ≤ payload part →
        KeepsBlocks (usedBlocks 0 cs) m m' ∧ ∃ cs', m'.TiledBy cs')

/-- The header of what is left of the first run that is large enough ends inside the region. -/
def RestInside (m : Mpool) (cs : List (Bool × ℕ)) (size : ℕ) : Prop :=
  ∀ pre run post part, FirstRun size cs pre run post → MergedPart size part run →
    size < payload part → extent pre + 4 + size + 4 ≤ m.size

theorem mpoolTake_returns (h : p + 4 ≤ m.size) (hrest : size < n → p + 4 + size + 4 ≤ m.size) :
    ∃ m', mpoolTake size p n m = some (some (p + 4), m') := by
  unfold mpoolTake
  rw [Mpool.setHeader_eq h]
  simp only [Option.bind_eq_bind, Option.bind_some, Option.pure_def]
  split_ifs with hless
  · rw [Mpool.setHeader_eq (m := { m with mem := m.mem.put32 p (markUsed size) }) (hrest hless),
      Option.bind_some]
    exact ⟨_, rfl⟩
  · exact ⟨_, rfl⟩

theorem mpoolTake_outside (hless : size < n) (hout : m.size < p + 4 + size + 4) :
    mpoolTake size p n m = none := by
  unfold mpoolTake
  cases hput : m.setHeader p (markUsed size) with
  | none => rfl
  | some m₁ =>
      obtain ⟨-, ⟨⟩⟩ := Option.ite_none_right_eq_some.mp hput
      simp only [Option.bind_eq_bind, Option.bind_some, if_pos hless]
      rw [Mpool.setHeader, if_neg (not_le.mpr hout), Option.bind_none]

/-- Allocations do so exactly where the header of the rest ends inside the region. -/
theorem mpoolAlloc_first_iff (h : m.TiledBy cs) (size : ℕ) :
    AllocatesFirst m cs size ↔ RestInside m cs size := by
  obtain ⟨r, m₁, cs₁, -, halloc, hbec, hblocks, -, -, hends, hat⟩ := mpoolAlloc_scan h size
  constructor
  · rintro ⟨r', m', hrun, -⟩ pre run post part hfirst hpart hless
    by_contra hout
    cases r with
    | none =>
        have hlt := hends.none_iff.mp rfl pre run post hfirst.toFreeRun
        have hle := hfirst.enough
        omega
    | some x =>
        obtain ⟨q, N⟩ := x
        obtain ⟨pre', run', post', part', hfirst', hpart', rfl, rfl⟩ := hends.first_run
        obtain rfl := hfirst.start_eq hfirst'
        obtain rfl := hfirst.run_eq hfirst'.toFreeRun
        obtain rfl := hpart.part_eq hpart'
        have hstuck : mpoolTake size (0 + extent pre) (payload part) m₁ = none :=
          mpoolTake_outside hless (by rw [hbec.size]; omega)
        rw [halloc, Option.elim_some, hstuck] at hrun
        cases hrun
  · intro hinside
    cases r with
    | none =>
        have hno : (none : Option ℕ) = none ↔ NoRun size cs :=
          iff_of_true rfl (hends.none_iff.mp rfl)
        exact ⟨none, m₁, halloc, hno, fun b hb => nomatch hb⟩
    | some x =>
        obtain ⟨q, N⟩ := x
        have hnone : some (q + 4) = none ↔ NoRun size cs :=
          iff_of_false (nomatch ·) fun hno => nomatch hends.none_iff.mpr hno
        obtain ⟨pre, run, post, part, hfirst, hpart, hq, rfl⟩ := hends.first_run
        rw [Nat.zero_add] at hq
        obtain ⟨A, B, rfl, hA⟩ := hat q _ rfl
        have hend := hbec.tiled.header.2
        by_cases hleft : payload part = size ∨ size + 4 ≤ payload part
        · obtain ⟨m', cs', htake, hbec', -⟩ := mpoolTake_spec hbec.tiled hleft
          rw [hblocks] at hbec'
          refine ⟨some (q + 4), m', ?_, hnone, fun b hb => ?_⟩
          · rw [halloc, hA]
            exact htake
          · obtain rfl := Option.some.inj hb
            exact ⟨pre, run, post, part, hfirst, hpart, by rw [hq],
              fun _ => ⟨hbec.keeps.trans hbec'.keeps, cs', hbec'.tiled⟩⟩
        · obtain ⟨m', htake⟩ : ∃ m', mpoolTake size q (payload part) m₁ = some (some (q + 4), m') :=
            mpoolTake_returns (by omega) fun hless => by
              have hin := hinside pre run post part hfirst hpart hless
              rw [hbec.size, hq]
              exact hin
          refine ⟨some (q + 4), m', halloc.trans htake, hnone, fun b hb => ?_⟩
          obtain rfl := Option.some.inj hb
          exact ⟨pre, run, post, part, hfirst, hpart, by rw [hq], fun hc => absurd hc hleft⟩

/-- The chunk of twelve bytes is cut into one of eight and an empty one. -/
theorem mpoolAlloc_first_iff_twelve :
    AllocatesFirst (mpoolInit (fun _ => 7) 16) [(false, 12)] 8 := by
  refine (mpoolAlloc_first_iff (mpoolInit_tiled (fun _ => 7) (by decide) (by decide)) 8).mpr ?_
  intro pre run post part hfirst _ _
  obtain ⟨rfl, -, -⟩ := hfirst.toFreeRun.whole (by simp)
  decide

/-- Of twelve bytes ten are taken, and the header of the two that are left is stored over the end
of the region. -/
theorem mpoolAlloc_past_end : (mpoolInit (fun _ => 7) 16).TiledBy [(false, 12)] ∧
    mpoolAlloc (mpoolInit (fun _ => 7) 16) 10 = none ∧
    ¬ AllocatesFirst (mpoolInit (fun _ => 7) 16) [(false, 12)] 10 := by
  have hnone : mpoolAlloc (mpoolInit (fun _ => 7) 16) 10 = none := rfl
  refine ⟨mpoolInit_tiled (fun _ => 7) (by decide) (by decide), hnone, ?_⟩
  rintro ⟨r, m', hrun, -⟩
  rw [hnone] at hrun
  cases hrun

end Carthage
