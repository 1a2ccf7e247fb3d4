import Carthage.Chunkq

/-!
# Chunk queues are byte queues

A chunk queue holds the concatenation of what its nodes carry. Only the head node is ever
partly read, and no node but a lone one is empty.
-/

namespace Carthage

variable {env : Allocator} {q q' : Chunkq} {n : Chunkn} {ss init rest : List (ℕ × ℕ × List UInt8)}
  {L xs p : List UInt8} {a b off chunk k : ℕ}

/-- A node of at most `chunk` bytes with its read offset and the bytes behind it. -/
structure Chunkn.Carries (chunk : ℕ) (n : Chunkn) (c : ℕ × List UInt8) : Prop where
  offset : n.offset = c.1
  size : n.size = c.2.length
  fits : n.offset + n.size ≤ chunk
  bytes : n.data.read n.offset n.size = c.2

/-- The nodes of a chunk queue with what they carry. -/
structure ChunkqShape (q : Chunkq) (ss : List (ℕ × ℕ × List UInt8)) : Prop where
  sound : q.store.Sound
  nodes : Segments Chunkn.link (Chunkn.Carries q.chunk) q.store.nodes q.head ss
  tail : q.tail = ss.getLast?.map Prod.fst
  unread : ∀ s ∈ ss.tail, s.2.1 = 0

def chunkqBytes (ss : List (ℕ × ℕ × List UInt8)) : List UInt8 := (ss.map fun s => s.2.2).flatten

def Packing (ss : List (ℕ × ℕ × List UInt8)) : Prop :=
  (∀ s ∈ ss, s.2.2 ≠ []) ∨ ∃ a, ss = [(a, 0, [])]

structure ChunkqHolds (q : Chunkq) (L : List UInt8) : Prop where
  shape : ∃ ss, ChunkqShape q ss ∧ Packing ss ∧ chunkqBytes ss = L
  size : q.size = L.length
  chunk : 0 < q.chunk

/-- What a call may do to a byte queue. -/
inductive ByteQueueStep : List UInt8 → ChunkqOp × (ℤ × List UInt8) → List UInt8 → Prop
  | append {L buffer : List UInt8} {r : ℕ} : r ≤ buffer.length →
      ByteQueueStep L (.append buffer, r, []) (L ++ buffer.take r)
  | appendFailed {L buffer : List UInt8} : ByteQueueStep L (.append buffer, -1, []) L
  | read {L : List UInt8} {size : ℕ} :
      ByteQueueStep L (.read size, (L.take size).length, L.take size) (L.drop size)
  | readFailed {size : ℕ} : ByteQueueStep [] (.read size, -1, []) []
  | peek {L : List UInt8} {offset size : ℕ} : offset < L.length →
      ByteQueueStep L (.peek offset size, ((L.drop offset).take size).length,
        (L.drop offset).take size) L
  | peekFailed {L : List UInt8} {offset size : ℕ} : L.length ≤ offset →
      ByteQueueStep L (.peek offset size, -1, []) L
  | clear {L : List UInt8} : ByteQueueStep L (.clear, 0, []) []

theorem chunkqBytes_append (ss rest : List (ℕ × ℕ × List UInt8)) :
    chunkqBytes (ss ++ rest) = chunkqBytes ss ++ chunkqBytes rest := by
  unfold chunkqBytes
  rw [List.map_append, List.flatten_append]

theorem chunkqBytes_cons (s : ℕ × ℕ × List UInt8) (ss : List (ℕ × ℕ × List UInt8)) :
    chunkqBytes (s :: ss) = s.2.2 ++ chunkqBytes ss := rfl

theorem chunkqBytes_concat (ss : List (ℕ × ℕ × List UInt8)) (a off : ℕ) (xs : List UInt8) :
    chunkqBytes (ss ++ [(a, off, xs)]) = chunkqBytes ss ++ xs := by
  rw [chunkqBytes_append]
  simp [chunkqBytes]

/-! ## One node -/

theorem Chunkn.carries_new (p : Option ℕ) (data : Bytes) :
    (⟨p, data, 0, 0⟩ : Chunkn).Carries chunk (0, []) :=
  ⟨rfl, rfl, Nat.zero_le _, rfl⟩

theorem Chunkn.Carries.fill (h : n.Carries chunk (off, xs)) (hk : n.offset + n.size + p.length ≤ chunk) :
    ({ n with data := n.data.write (n.offset + n.size) p, size := n.size + p.length } :
      Chunkn).Carries chunk (off, xs ++ p) := by
  refine ⟨h.offset, ?_, ?_, ?_⟩
  · change n.size + p.length = (xs ++ p).length
    rw [List.length_append, h.size]
  · change n.offset + (n.size + p.length) ≤ chunk
    omega
  · change (n.data.write (n.offset + n.size) p).read n.offset (n.size + p.length) = xs ++ p
    rw [Bytes.read_add, Bytes.read_write_self, Bytes.read_write_outside (Or.inl le_rfl), h.bytes]

theorem Chunkn.Carries.consume (h : n.Carries chunk (off, xs)) (hk : k ≤ xs.length) :
    n.data.read n.offset k = xs.take k ∧
      ({ n with offset := n.offset + k, size := n.size - k } : Chunkn).Carries chunk
        (off + k, xs.drop k) := by
  have hsize : n.size = xs.length := h.size
  have hfits := h.fits
  have hbytes : n.data.read n.offset n.size = xs := h.bytes
  refine ⟨?_, ?_, ?_, ?_, ?_⟩
  · rw [← hbytes, Bytes.read_take (by omega)]
  · change n.offset + k = off + k
    rw [h.offset]
  · change n.size - k = (xs.drop k).length
    rw [List.length_drop, hsize]
  · change n.offset + k + (n.size - k) ≤ chunk
    omega
  · change n.data.read (n.offset + k) (n.size - k) = xs.drop k
    rw [← hbytes, Bytes.read_drop]

/-! ## Appending -/

theorem chunknAlloc_cases (env : Allocator) (h : q.store.Sound) :
    chunknAlloc env q = (none, { q with requests := q.requests + 1 }) ∨
    ∃ b store psize data, chunknAlloc env q = (some b, { q with
        store := store, psize := psize, requests := q.requests + 1 }) ∧
      q.store.nodes b = none ∧ store.Sound ∧
      store.nodes = Function.update q.store.nodes b (some ⟨none, data, 0, 0⟩) := by
  unfold chunknAlloc
  cases htake : q.store.take (env.granted q.requests) ⟨none, env.uninit q.requests, 0, 0⟩ with
  | none => exact Or.inl rfl
  | some r =>
      obtain ⟨b, store⟩ := r
      obtain ⟨hdead, hnodes, hsound⟩ := h.take htake
      exact Or.inr ⟨b, store, _, _, rfl, hdead, hsound, hnodes⟩

theorem chunknAlloc_granted (h : env.granted q.requests = true) :
    chunknAlloc env q ≠ (none, { q with requests := q.requests + 1 }) := by
  obtain ⟨a, store, htake⟩ := q.store.take_granted ⟨none, env.uninit q.requests, 0, 0⟩
  unfold chunknAlloc
  rw [h, htake]
  simp

theorem take_min_length (p : List UInt8) (k : ℕ) : p.take (min p.length k) = p.take k := by
  rcases le_total p.length k with hle | hle
  · rw [min_eq_left hle, List.take_length, List.take_of_length_le hle]
  · rw [min_eq_right hle]

theorem chunkqFill_shape (h : ChunkqShape q (ss ++ [(a, off, xs)]))
    (hk : off + xs.length + k ≤ q.chunk) :
    ∃ q', chunkqFill q a k p = some (min p.length k, q') ∧
      ChunkqShape q' (ss ++ [(a, off, xs ++ p.take k)]) ∧
      q'.size = q.size + min p.length k ∧ q'.chunk = q.chunk := by
  obtain ⟨ha, n, hn, hc, hnext⟩ := h.nodes.last
  have hoff : n.offset = off := hc.offset
  have hsize : n.size = xs.length := hc.size
  have hmin : (if p.length < k then p.length else k) = min p.length k := by
    split_ifs <;> omega
  have hlen : (p.take (min p.length k)).length = min p.length k := by
    rw [List.length_take]
    omega
  have htake := take_min_length p k
  have hcopy : n.data.memcpy 0 q.chunk (n.offset + n.size) (p.take (min p.length k)) =
      some (n.data.write (n.offset + n.size) (p.take (min p.length k))) :=
    Bytes.memcpy_eq ⟨Nat.zero_le _, by omega⟩
  have hfill := hc.fill (p := p.take (min p.length k)) (by omega)
  rw [hlen, htake] at hfill
  rw [htake] at hcopy
  refine ⟨{ q with
    store := q.store.put a { n with
      data := n.data.write (n.offset + n.size) (p.take k), size := n.size + min p.length k },
    size := q.size + min p.length k }, ?_, ⟨?_, ?_, ?_, ?_⟩, rfl, rfl⟩
  · simp only [chunkqFill, hn, hmin, hcopy, htake, Option.bind_eq_bind, Option.bind_some,
      Option.pure_def]
  · exact h.sound.put hn
  · exact h.nodes.put_last hfill hnext
  · rw [List.getLast?_concat]
    have htail := h.tail
    rw [List.getLast?_concat] at htail
    exact htail
  · intro s hs
    cases ss with
    | nil => cases hs
    | cons u us =>
        rcases List.mem_append.mp hs with hs | hs
        · exact h.unread s (List.mem_append_left _ hs)
        · obtain rfl := List.mem_singleton.mp hs
          exact h.unread (a, off, xs) (List.mem_append_right _ (List.mem_singleton_self _))

theorem ChunkqShape.append_node {store : NodeStore Chunkn} {data : Bytes} (psize requests : ℕ)
    (h : ChunkqShape q (ss ++ [(a, off, xs)])) (hn : q.store.nodes a = some n)
    (hdead : q.store.nodes b = none) (hsound : store.Sound)
    (hnodes : store.nodes = Function.update q.store.nodes b (some ⟨none, data, 0, 0⟩)) :
    store.nodes a = some n ∧
      ChunkqShape { q with
        store := store.put a { n with next := some b }, tail := some b, psize := psize,
        requests := requests } (ss ++ [(a, off, xs)] ++ [(b, 0, [])]) := by
  have hne : a ≠ b := by
    rintro rfl
    simp [hdead] at hn
  have ha : store.nodes a = some n := by
    rw [hnodes, Function.update_of_ne hne]
    exact hn
  obtain ⟨-, m, hm, hc, -⟩ := h.nodes.last
  obtain rfl := Option.some.inj (hn.symm.trans hm)
  refine ⟨ha, hsound.put ha, ?_, ?_, ?_⟩
  · have hlink := h.nodes.append_node (n := { n with next := some b })
      (m := (⟨none, data, 0, 0⟩ : Chunkn)) (y := (0, [])) hdead
      ⟨hc.offset, hc.size, hc.fits, hc.bytes⟩ rfl (Chunkn.carries_new _ _) rfl
    rw [← hnodes] at hlink
    rw [List.append_assoc]
    exact hlink
  · rw [List.getLast?_concat]
    rfl
  · intro s hs
    rw [List.tail_append_of_ne_nil (by simp)] at hs
    rcases List.mem_append.mp hs with hs | hs
    · exact h.unread s hs
    · obtain rfl := List.mem_singleton.mp hs
      rfl

theorem Packing.fill (h : Packing (ss ++ [(a, off, xs)])) (hp : p ≠ []) :
    Packing (ss ++ [(a, off, xs ++ p)]) := by
  left
  intro s hs
  rcases List.mem_append.mp hs with hs | hs
  · rcases h with hall | ⟨b, hone⟩
    · exact hall s (List.mem_append_left _ hs)
    · obtain rfl : ss = [] := (List.append_eq_singleton_iff.mp hone).elim (fun hc => hc.1)
        (fun hc => by simp at hc)
      cases hs
  · obtain rfl := List.mem_singleton.mp hs
    exact List.append_ne_nil_of_right_ne_nil xs hp

theorem Packing.append_node (h : Packing (ss ++ [(a, off, xs)])) (hxs : xs ≠ []) (hp : p ≠ []) :
    Packing (ss ++ [(a, off, xs)] ++ [(b, 0, p)]) := by
  left
  intro s hs
  rcases List.mem_append.mp hs with hs | hs
  · rcases h with hall | ⟨d, hone⟩
    · exact hall s hs
    · rw [hone, List.mem_singleton] at hs
      have hlast : (a, off, xs) ∈ [(d, 0, [])] := hone ▸ List.mem_append_right _ (by simp)
      simp only [List.mem_singleton, Prod.mk.injEq] at hlast
      exact absurd hlast.2.2 hxs
  · obtain rfl := List.mem_singleton.mp hs
    exact hp

theorem Packing.ne_nil_of_full (h : Packing (ss ++ [(a, off, xs)])) (hpos : 0 < off + xs.length) :
    xs ≠ [] := by
  rcases h with hall | ⟨d, hone⟩
  · exact hall (a, off, xs) (List.mem_append_right _ (List.mem_singleton_self _))
  · have hlast : (a, off, xs) ∈ [(d, 0, [])] := hone ▸ List.mem_append_right _ (by simp)
    simp only [List.mem_singleton, Prod.mk.injEq] at hlast
    obtain ⟨-, rfl, rfl⟩ := hlast
    simp at hpos

theorem take_split (p : List UInt8) (m k : ℕ) :
    p.take m ++ (p.drop (min p.length m)).take k = p.take (min p.length m + k) := by
  rw [List.take_add, take_min_length]

/-- The loop appends a prefix of what is left of the buffer, and all of it when there is memory. -/
theorem chunkqAppendLoop_spec {env : Allocator} {fuel w : ℕ} (h : ChunkqShape q (ss ++ [(a, off, xs)]))
    (hp : Packing (ss ++ [(a, off, xs)])) (hchunk : 0 < q.chunk)
    (hfuel : p.length < fuel) :
    ∃ k q' ss', k ≤ p.length ∧ chunkqAppendLoop env fuel q a p w = some (((w + k : ℕ) : ℤ), q') ∧
      ChunkqShape q' ss' ∧ Packing ss' ∧
      chunkqBytes ss' = chunkqBytes (ss ++ [(a, off, xs)]) ++ p.take k ∧
      q'.size = q.size + k ∧ q'.chunk = q.chunk ∧
      ((∀ i, env.granted i = true) → k = p.length) := by
  induction fuel generalizing q ss a off xs p w with
  | zero => omega
  | succ fuel ih =>
      by_cases hnil : p = []
      · refine ⟨0, q, _, Nat.zero_le _, ?_, h, hp, ?_, rfl, rfl, fun _ => by rw [hnil, List.length_nil]⟩
        · unfold chunkqAppendLoop
          rw [if_pos hnil, Nat.add_zero]
        · rw [List.take_zero, List.append_nil]
      have hpos : 0 < p.length := List.length_pos_of_ne_nil hnil
      obtain ⟨-, n, hn, hc, -⟩ := h.nodes.last
      have hoff : n.offset = off := hc.offset
      have hsize : n.size = xs.length := hc.size
      have hfits := hc.fits
      have hroom : chunknRoom q n = q.chunk - (off + xs.length) := by
        rw [chunknRoom, if_pos hfits, hoff, hsize]
      by_cases hfull : chunknRoom q n = 0
      · have hle : q.chunk ≤ off + xs.length := by omega
        have hxs : xs ≠ [] := hp.ne_nil_of_full (by omega)
        have htail : q.tail = some a := by
          rw [h.tail, List.getLast?_concat]
          rfl
        rcases chunknAlloc_cases env h.sound with
          hnone | ⟨b, store, psize, data, halloc, hdead, hsound, hnodes⟩
        · refine ⟨0, { q with requests := q.requests + 1 }, _, Nat.zero_le _, ?_,
            ⟨h.sound, h.nodes, h.tail, h.unread⟩, hp, ?_, rfl, rfl,
            fun hall => absurd hnone (chunknAlloc_granted (hall _))⟩
          · unfold chunkqAppendLoop
            simp only [if_neg hnil, hn, if_pos hfull, hnone, Option.bind_eq_bind,
              Option.bind_some, Nat.add_zero, Option.pure_def]
          · rw [List.take_zero, List.append_nil]
        · obtain ⟨ha, hshape⟩ := h.append_node psize (q.requests + 1) hn hdead
            hsound hnodes
          obtain ⟨q₁, hfill, h₁, hsize₁, hchunk₁⟩ :=
            chunkqFill_shape (p := p) (k := q.chunk) hshape (by simp)
          have htake : p.take q.chunk ≠ [] := by
            rw [ne_eq, List.take_eq_nil_iff]
            exact not_or.mpr ⟨hchunk.ne', hnil⟩
          have hrest : (p.drop (min p.length q.chunk)).length < fuel := by
            rw [List.length_drop]
            omega
          obtain ⟨k, q', ss', hk, hloop, h', hp', hbytes, hsize', hchunk', hfull'⟩ :=
            ih (w := w + min p.length q.chunk) h₁ (hp.append_node hxs htake) (hchunk₁ ▸ hchunk) hrest
          rw [List.length_drop] at hk
          refine ⟨min p.length q.chunk + k, q', ss', by omega, ?_, h', hp', ?_, ?_,
            hchunk'.trans hchunk₁, fun hall => ?_⟩
          · unfold chunkqAppendLoop
            simp only [if_neg hnil, hn, if_pos hfull, halloc, htail, ha, hfill, hloop,
              Option.bind_eq_bind, Option.bind_some, Nat.add_assoc]
          · rw [hbytes, chunkqBytes_concat, List.nil_append, List.append_assoc, take_split]
          · rw [hsize', hsize₁, Nat.add_assoc]
          · rw [hfull' hall, List.length_drop]
            omega
      · obtain ⟨q₁, hfill, h₁, hsize₁, hchunk₁⟩ :=
          chunkqFill_shape (p := p) (k := chunknRoom q n) h (by omega)
        have htake : p.take (chunknRoom q n) ≠ [] := by
          rw [ne_eq, List.take_eq_nil_iff]
          exact not_or.mpr ⟨hfull, hnil⟩
        have hrest : (p.drop (min p.length (chunknRoom q n))).length < fuel := by
          rw [List.length_drop]
          omega
        obtain ⟨k, q', ss', hk, hloop, h', hp', hbytes, hsize', hchunk', hfull'⟩ :=
          ih (w := w + min p.length (chunknRoom q n)) h₁ (hp.fill htake) (hchunk₁ ▸ hchunk) hrest
        rw [List.length_drop] at hk
        refine ⟨min p.length (chunknRoom q n) + k, q', ss', by omega, ?_, h', hp', ?_, ?_,
          hchunk'.trans hchunk₁, fun hall => ?_⟩
        · unfold chunkqAppendLoop
          simp only [if_neg hnil, hn, if_neg hfull, hfill, hloop, Option.bind_eq_bind,
            Option.bind_some, Nat.add_assoc]
        · rw [hbytes, chunkqBytes_concat, chunkqBytes_concat, List.append_assoc, List.append_assoc,
            take_split, List.append_assoc]
        · rw [hsize', hsize₁, Nat.add_assoc]
        · rw [hfull' hall, List.length_drop]
          omega

theorem chunkqAppendLoop_holds (env : Allocator) (h : ChunkqShape q (ss ++ [(a, off, xs)]))
    (hp : Packing (ss ++ [(a, off, xs)])) (hsize : q.size = (chunkqBytes (ss ++ [(a, off, xs)])).length)
    (hchunk : 0 < q.chunk) (p : List UInt8) :
    ∃ (k : ℕ) (q' : Chunkq), k ≤ p.length ∧
      chunkqAppendLoop env (p.length + 1) q a p 0 = some ((k : ℤ), q') ∧
      ChunkqHolds q' (chunkqBytes (ss ++ [(a, off, xs)]) ++ p.take k) ∧ q'.chunk = q.chunk ∧
      ((∀ i, env.granted i = true) → k = p.length) := by
  obtain ⟨k, q', ss', hk, hloop, h', hp', hbytes, hsize', hchunk', hfull⟩ :=
    chunkqAppendLoop_spec (w := 0) h hp hchunk (Nat.lt_succ_self p.length)
  rw [Nat.zero_add] at hloop
  refine ⟨k, q', hk, hloop, ⟨⟨ss', h', hp', hbytes⟩, ?_, hchunk' ▸ hchunk⟩, hchunk', hfull⟩
  rw [hsize', hsize, List.length_append, List.length_take, min_eq_left hk]

theorem chunkqAppend_spec (env : Allocator) (h : ChunkqHolds q L) (p : List UInt8) :
    ∃ r q' L', chunkqAppend env q p = some (r, q') ∧
      ByteQueueStep L (.append p, r, []) L' ∧ ChunkqHolds q' L' ∧
      ((∀ i, env.granted i = true) → r = p.length) := by
  obtain ⟨⟨ss, hshape, hp, rfl⟩, hsize, hchunk⟩ := h
  rcases List.eq_nil_or_concat ss with rfl | ⟨init, ⟨a, off, xs⟩, rfl⟩
  · have htail : q.tail = none := hshape.tail
    rcases chunknAlloc_cases env hshape.sound with
      hnone | ⟨b, store, psize, data, halloc, hdead, hsound, hnodes⟩
    · refine ⟨-1, { q with requests := q.requests + 1 }, _, ?_, .appendFailed,
        ⟨⟨[], ⟨hshape.sound, hshape.nodes, hshape.tail, hshape.unread⟩, hp, rfl⟩, hsize, hchunk⟩,
        fun hall => absurd hnone (chunknAlloc_granted (hall _))⟩
      simp only [chunkqAppend, htail, hnone]
    · let q₁ : Chunkq := { q with
        store := store, psize := psize, requests := q.requests + 1, tail := some b, head := some b }
      have hb : q₁.store.nodes b = some ⟨none, data, 0, 0⟩ := by
        change store.nodes b = _
        rw [hnodes]
        exact Function.update_self _ _ _
      have hshape₁ : ChunkqShape q₁ ([] ++ [(b, 0, [])]) :=
        ⟨hsound, Segments.single hb (Chunkn.carries_new _ _) rfl, rfl, fun _ hs => (nomatch hs)⟩
      obtain ⟨k, q', hk, hloop, h', -, hfull⟩ := chunkqAppendLoop_holds env hshape₁
        (Or.inr ⟨b, rfl⟩) hsize hchunk p
      refine ⟨k, q', _, ?_, .append hk, h', fun hall => congrArg Nat.cast (hfull hall)⟩
      simp only [chunkqAppend, htail, halloc]
      exact hloop
  · rw [List.concat_eq_append] at hshape hp hsize ⊢
    have htail : q.tail = some a := by
      rw [hshape.tail, List.getLast?_concat]
      rfl
    obtain ⟨k, q', hk, hloop, h', -, hfull⟩ := chunkqAppendLoop_holds env hshape hp hsize hchunk p
    refine ⟨k, q', _, ?_, .append hk, h', fun hall => congrArg Nat.cast (hfull hall)⟩
    simp only [chunkqAppend, htail]
    exact hloop

theorem chunkqAppend_all (env : Allocator) (hall : ∀ i, env.granted i = true) (hc : 0 < chunk)
    (p : List UInt8) :
    ∃ q', chunkqAppend env (chunkqAlloc chunk) p = some ((p.length : ℤ), q') ∧
      ChunkqHolds q' p ∧ q'.chunk = chunk := by
  rcases chunknAlloc_cases env (q := chunkqAlloc chunk) NodeStore.sound_empty with
    hnone | ⟨b, store, psize, data, halloc, -, hsound, hnodes⟩
  · exact absurd hnone (chunknAlloc_granted (hall _))
  · let q₁ : Chunkq := { chunkqAlloc chunk with
      store := store, psize := psize, requests := (chunkqAlloc chunk).requests + 1,
      tail := some b, head := some b }
    have hb : q₁.store.nodes b = some ⟨none, data, 0, 0⟩ := by
      change store.nodes b = _
      rw [hnodes]
      exact Function.update_self _ _ _
    have hshape₁ : ChunkqShape q₁ ([] ++ [(b, 0, [])]) :=
      ⟨hsound, Segments.single hb (Chunkn.carries_new _ _) rfl, rfl, fun _ hs => (nomatch hs)⟩
    obtain ⟨k, q', -, hloop, h', hchunk', hfull⟩ := chunkqAppendLoop_holds env hshape₁
      (Or.inr ⟨b, rfl⟩) rfl hc p
    obtain rfl := hfull hall
    rw [List.take_length] at h'
    refine ⟨q', ?_, h', hchunk'⟩
    unfold chunkqAppend
    simp only [halloc]
    exact hloop

/-! ## Reading -/

theorem chunknLoad_eq {m : ℕ} (h : off + m ≤ q.chunk) :
    chunknLoad q n off m = some (n.data.read off m) := if_pos h

theorem ChunkqShape.consume_head (h : ChunkqShape q ((a, off, xs) :: rest)) {n : Chunkn}
    (hn : q.store.nodes a = some n) (hk : k < xs.length) (size : ℕ) :
    ChunkqShape { q with
      store := q.store.put a { n with offset := n.offset + k, size := n.size - k }, size := size }
      ((a, off + k, xs.drop k) :: rest) := by
  obtain ⟨hhead, ha, m, hm, hc, hrest⟩ := Segments.cons_iff.mp h.nodes
  obtain rfl := Option.some.inj (hn.symm.trans hm)
  refine ⟨h.sound.put hn, ?_, ?_, h.unread⟩
  · refine Segments.cons_iff.mpr ⟨hhead, ha, _, Function.update_self _ _ _, (hc.consume hk.le).2, ?_⟩
    exact hrest.update ha _
  · have htail := h.tail
    cases rest with
    | nil => exact htail
    | cons u us => exact htail

theorem ChunkqShape.drop_head (h : ChunkqShape q ((a, off, xs) :: rest)) {n : Chunkn}
    (hn : q.store.nodes a = some n) (m : Chunkn) (size : ℕ) :
    ChunkqShape (chunknFree { q with
      store := q.store.put a m, size := size, head := n.next,
      tail := if n.next = none then none else q.tail } a) rest := by
  obtain ⟨hhead, ha, m', hm, hc, hrest⟩ := Segments.cons_iff.mp h.nodes
  obtain rfl := Option.some.inj (hn.symm.trans hm)
  have hput : (q.store.put a m).nodes a = some m := Function.update_self _ _ _
  refine ⟨(h.sound.put hn).give hput _, (hrest.update ha _).update ha _, ?_, ?_⟩
  · have hstart := hrest.start
    have htail := h.tail
    cases rest with
    | nil => exact if_pos hstart
    | cons u us =>
        have hsome : n.next ≠ none := by
          intro hc
          rw [show Chunkn.link.get n = n.next from rfl, hc] at hstart
          cases hstart
        exact (if_neg hsome).trans htail
  · intro s hs
    exact h.unread s (List.mem_of_mem_tail hs)

theorem Packing.tail (h : Packing ((a, off, xs) :: rest)) : Packing rest := by
  rcases h with hall | ⟨b, hone⟩
  · exact Or.inl fun s hs => hall s (List.mem_cons_of_mem _ hs)
  · obtain ⟨-, rfl⟩ := List.cons.inj hone
    exact Or.inl fun s hs => (nomatch hs)

theorem Packing.consume (h : Packing ((a, off, xs) :: rest)) (hk : k < xs.length) :
    Packing ((a, off + k, xs.drop k) :: rest) := by
  have hdrop : xs.drop k ≠ [] := by
    rw [ne_eq, List.drop_eq_nil_iff]
    omega
  left
  intro s hs
  rcases List.mem_cons.mp hs with rfl | hs
  · exact hdrop
  · rcases h with hall | ⟨b, hone⟩
    · exact hall s (List.mem_cons_of_mem _ hs)
    · obtain ⟨-, rfl⟩ := List.cons.inj hone
      cases hs

theorem Packing.pos (h : Packing ((a, off, xs) :: rest)) (hrest : rest ≠ []) : 0 < xs.length := by
  rcases h with hall | ⟨b, hone⟩
  · exact List.length_pos_of_ne_nil (hall (a, off, xs) List.mem_cons_self)
  · exact absurd (List.cons.inj hone).2 hrest

theorem chunkqReadLoop_spec {fuel r : ℕ} {o : List UInt8} (h : ChunkqShape q ((a, off, xs) :: rest))
    (hp : Packing ((a, off, xs) :: rest))
    (hsize : q.size = (chunkqBytes ((a, off, xs) :: rest)).length) (hchunk : 0 < q.chunk)
    (hfuel : r < fuel) :
    ∃ q', chunkqReadLoop fuel q a r o =
        some (o ++ (chunkqBytes ((a, off, xs) :: rest)).take r, q') ∧
      ChunkqHolds q' ((chunkqBytes ((a, off, xs) :: rest)).drop r) := by
  induction fuel generalizing q a off xs rest r o with
  | zero => omega
  | succ fuel ih =>
      rcases Nat.eq_zero_or_pos r with rfl | hpos
      · refine ⟨q, ?_, ⟨_, h, hp, rfl⟩, hsize, hchunk⟩
        unfold chunkqReadLoop
        rw [if_pos rfl, List.take_zero, List.append_nil]
      obtain ⟨hhead, -, n, hn, hc, hrest⟩ := Segments.cons_iff.mp h.nodes
      have hnsize : n.size = xs.length := hc.size
      have hfits := hc.fits
      rw [chunkqBytes_cons, List.length_append] at hsize
      change q.size = xs.length + (chunkqBytes rest).length at hsize
      rcases Nat.lt_or_ge r xs.length with hlt | hge
      · have hk : (if n.size < r then n.size else r) = r := if_neg (by omega)
        have hload : chunknLoad q n n.offset r = some (xs.take r) := by
          rw [chunknLoad_eq (by omega), (hc.consume hlt.le).1]
        have hleft : ¬ n.size - r = 0 := by omega
        have hsize₁ : q.size - r =
            (chunkqBytes ((a, off + r, xs.drop r) :: rest)).length := by
          rw [chunkqBytes_cons, List.length_append]
          change q.size - r = (xs.drop r).length + (chunkqBytes rest).length
          rw [List.length_drop]
          omega
        obtain ⟨q', hloop, h'⟩ := ih (o := o ++ xs.take r) (r := 0)
          (h.consume_head hn hlt (q.size - r)) (hp.consume hlt) hsize₁ hchunk (by omega)
        refine ⟨q', ?_, ?_⟩
        · unfold chunkqReadLoop
          simp only [if_neg hpos.ne', hn, hk, hload, if_neg hleft, Nat.sub_self, hloop,
            Option.bind_eq_bind, Option.bind_some]
          rw [List.take_zero, List.append_nil, chunkqBytes_cons, List.take_append_of_le_length hlt.le]
        · rw [List.drop_zero] at h'
          rw [chunkqBytes_cons, List.drop_append_of_le_length hlt.le]
          exact h'
      · have hk : (if n.size < r then n.size else r) = n.size := by
          split_ifs <;> omega
        have hload : chunknLoad q n n.offset n.size = some xs := by
          rw [chunknLoad_eq hfits, hc.bytes]
        let n₁ : Chunkn := { n with offset := n.offset + n.size, size := n.size - n.size }
        let q₁ := chunknFree { q with
          store := q.store.put a n₁, size := q.size - n.size, head := n.next,
          tail := if n.next = none then none else q.tail } a
        have hshape₁ : ChunkqShape q₁ rest := h.drop_head hn n₁ (q.size - n.size)
        have hsize₁ : q₁.size = (chunkqBytes rest).length := by
          change q.size - n.size = _
          omega
        have hnext : q₁.head = (rest.map Prod.fst).head? := hrest.start
        have hround : ∀ x, (q₁.head = none → some (o ++ xs, q₁) = x) →
            (∀ b, q₁.head = some b → chunkqReadLoop fuel q₁ b (r - n.size) (o ++ xs) = x) →
            chunkqReadLoop (fuel + 1) q a r o = x := by
          intro x hnone hsome
          unfold chunkqReadLoop
          simp only [if_neg hpos.ne', hn, hk, hload, if_pos (Nat.sub_self n.size),
            Option.bind_eq_bind, Option.bind_some]
          split
          · next heq => exact hnone heq
          · next b heq => exact hsome b heq
        rw [chunkqBytes_cons, List.take_append, List.drop_append, List.take_of_length_le hge,
          List.drop_of_length_le hge, List.nil_append]
        cases rest with
        | nil =>
            refine ⟨q₁, hround _ (fun _ => ?_) (fun b hb => ?_), ⟨[], hshape₁, hp.tail, ?_⟩,
              hsize₁.trans ?_, hchunk⟩
            · change some (o ++ xs, q₁) = some (o ++ (xs ++ [].take _), q₁)
              rw [List.take_nil, List.append_nil]
            · rw [hnext] at hb
              cases hb
            · change [] = [].drop _
              rw [List.drop_nil]
            · change 0 = ([].drop _).length
              rw [List.drop_nil, List.length_nil]
        | cons u us =>
            obtain ⟨b, off', ys⟩ := u
            have hpos' := hp.pos (List.cons_ne_nil _ _)
            obtain ⟨q', hloop, h'⟩ := ih (o := o ++ xs) (r := r - n.size) hshape₁ hp.tail
              hsize₁ hchunk (by omega)
            rw [List.append_assoc] at hloop
            refine ⟨q', hround _ (fun hnone => ?_) (fun b' hb => ?_), hnsize ▸ h'⟩
            · rw [hnext] at hnone
              cases hnone
            · obtain rfl : b = b' := Option.some.inj (hnext.symm.trans hb)
              rw [hloop, hnsize]

theorem chunkqRead_spec (h : ChunkqHolds q L) (size : ℕ) :
    ∃ r out q' L', chunkqRead q size = some (r, out, q') ∧
      ByteQueueStep L (.read size, r, out) L' ∧ ChunkqHolds q' L' := by
  obtain ⟨⟨ss, hshape, hp, rfl⟩, hsize, hchunk⟩ := id h
  have hstart := hshape.nodes.start
  cases ss with
  | nil =>
      have hhead : q.head = none := hstart
      refine ⟨-1, [], q, [], ?_, .readFailed, h⟩
      simp only [chunkqRead, hhead]
  | cons s rest =>
      obtain ⟨a, off, xs⟩ := s
      have hhead : q.head = some a := hstart
      obtain ⟨q', hloop, h'⟩ := chunkqReadLoop_spec (o := []) hshape hp hsize hchunk
        (Nat.lt_succ_self size)
      refine ⟨_, _, q', _, ?_, .read, h'⟩
      simp only [chunkqRead, hhead, hloop, List.nil_append, Option.bind_eq_bind, Option.bind_some,
        Option.pure_def]

/-! ## Peeking -/

/-- Every node that is passed adds to the count, so the walk finds the node of an offset, or
the end of the queue. -/
theorem chunknAtOffset_spec {fuel m offset : ℕ} {p : Option ℕ}
    (h : Segments Chunkn.link (Chunkn.Carries chunk) q.store.nodes p ss) (hp : Packing ss)
    (hm : m ≤ offset) (hfuel : offset + 2 ≤ m + fuel) :
    (m + (chunkqBytes ss).length ≤ offset ∧
      ∃ x, chunknAtOffset q offset fuel p m = some (none, x)) ∨
    ∃ pre a off xs post, ss = pre ++ (a, off, xs) :: post ∧
      Segments Chunkn.link (Chunkn.Carries chunk) q.store.nodes (some a) ((a, off, xs) :: post) ∧
      m + (chunkqBytes pre).length ≤ offset ∧
      offset < m + (chunkqBytes pre).length + xs.length ∧
      chunknAtOffset q offset fuel p m =
        some (some a, m + (chunkqBytes pre).length + xs.length) := by
  induction fuel generalizing p m ss with
  | zero => omega
  | succ fuel ih =>
      cases ss with
      | nil =>
          obtain rfl : p = none := h.start
          exact Or.inl ⟨hm, m, rfl⟩
      | cons s rest =>
          obtain ⟨a, off, xs⟩ := s
          obtain ⟨rfl, -, n, hn, hc, hrest⟩ := Segments.cons_iff.mp h
          have hsize : n.size = xs.length := hc.size
          by_cases hin : m + n.size > offset
          · refine Or.inr ⟨[], a, off, xs, rest, rfl, h, hm, ?_, ?_⟩
            · change offset < m + 0 + xs.length
              omega
            · unfold chunknAtOffset
              simp only [hn, if_pos hin, Option.bind_eq_bind, Option.bind_some, Option.pure_def]
              rw [hsize]
              rfl
          · have hstep : chunknAtOffset q offset (fuel + 1) (some a) m =
                chunknAtOffset q offset fuel n.next (m + n.size) := by
              conv => lhs; unfold chunknAtOffset
              simp only [hn, if_neg hin, Option.bind_eq_bind, Option.bind_some]
            rw [hstep, chunkqBytes_cons, List.length_append]
            by_cases hnil : rest = []
            · subst hnil
              have hnext : n.next = none := hrest.start
              rw [hnext]
              refine Or.inl ⟨?_, m + n.size, ?_⟩
              · change m + (xs.length + 0) ≤ offset
                omega
              · unfold chunknAtOffset
                rfl
            · have hpos := hp.pos hnil
              rcases ih hrest hp.tail (m := m + n.size) (by omega) (by omega) with
                ⟨hend, hx⟩ | ⟨pre, b, off', ys, post, rfl, hb, hle, hlt, hx⟩
              · refine Or.inl ⟨?_, hx⟩
                change m + (xs.length + _) ≤ offset
                omega
              · refine Or.inr ⟨(a, off, xs) :: pre, b, off', ys, post, rfl, hb, ?_, ?_, ?_⟩
                · rw [chunkqBytes_cons, List.length_append]
                  change m + (xs.length + _) ≤ offset
                  omega
                · rw [chunkqBytes_cons, List.length_append]
                  change offset < m + (xs.length + _) + ys.length
                  omega
                · refine hx.trans ?_
                  rw [chunkqBytes_cons, List.length_append, hsize, Nat.add_assoc m xs.length]

theorem chunkqPeekLoop_spec {fuel r : ℕ} {o : List UInt8} {p : Option ℕ}
    (h : Segments Chunkn.link (Chunkn.Carries q.chunk) q.store.nodes p ss)
    (hoff : ∀ s ∈ ss, s.2.1 = 0) (hne : ∀ s ∈ ss, s.2.2 ≠ []) (hfuel : r < fuel) :
    chunkqPeekLoop q fuel p r o = some (o ++ (chunkqBytes ss).take r) := by
  induction fuel generalizing p ss r o with
  | zero => omega
  | succ fuel ih =>
      unfold chunkqPeekLoop
      by_cases hrem : r = 0
      · rw [if_pos hrem, hrem, List.take_zero, List.append_nil]
      · rw [if_neg hrem]
        cases ss with
        | nil =>
            obtain rfl : p = none := h.start
            change some o = some (o ++ [].take r)
            rw [List.take_nil, List.append_nil]
        | cons s rest =>
            obtain ⟨a, off, xs⟩ := s
            obtain ⟨rfl, -, n, hn, hc, hrest⟩ := Segments.cons_iff.mp h
            have hzero : n.offset = 0 := hc.offset.trans (hoff (a, off, xs) List.mem_cons_self)
            have hpos := List.length_pos_of_ne_nil (hne (a, off, xs) List.mem_cons_self)
            change 0 < xs.length at hpos
            have hsize : n.size = xs.length := hc.size
            have hfits := hc.fits
            have hk : (if n.size < r then n.size else r) = min xs.length r := by
              split_ifs <;> omega
            have hload : chunknLoad q n 0 (min xs.length r) = some (xs.take r) := by
              have hread := (hc.consume (Nat.min_le_left xs.length r)).1
              rw [hzero, take_min_length] at hread
              rw [chunknLoad_eq (by omega), hread]
            have hloop := ih (o := o ++ xs.take r) (r := r - min xs.length r) hrest
              (fun s hs => hoff s (List.mem_cons_of_mem _ hs))
              (fun s hs => hne s (List.mem_cons_of_mem _ hs)) (by omega)
            have hleft : r - min xs.length r = r - xs.length := by omega
            simp only [hn, hk, hload, Option.bind_eq_bind, Option.bind_some]
            rw [chunkqBytes_cons, List.take_append, ← hleft, ← List.append_assoc]
            exact hloop

theorem ChunkqHolds.locate (h : ChunkqHolds q L) (offset : ℕ) :
    (L.length ≤ offset ∧ ∃ x, chunknAtOffset q offset (offset + 2) q.head 0 = some (none, x)) ∨
    ∃ a n x off xs skip post, chunknAtOffset q offset (offset + 2) q.head 0 = some (some a, x) ∧
      q.store.nodes a = some n ∧ n.Carries q.chunk (off, xs) ∧
      offset - (x - n.size) = skip ∧ skip < xs.length ∧
      Segments Chunkn.link (Chunkn.Carries q.chunk) q.store.nodes n.next post ∧
      (∀ s ∈ post, s.2.1 = 0) ∧ (∀ s ∈ post, s.2.2 ≠ []) ∧
      L.drop offset = xs.drop skip ++ chunkqBytes post := by
  obtain ⟨⟨ss, hshape, hp, rfl⟩, -, -⟩ := h
  rcases chunknAtOffset_spec hshape.nodes hp (Nat.zero_le offset) (Nat.zero_add (offset + 2)).ge with
    ⟨hend, x, hx⟩ | ⟨pre, a, off, xs, post, rfl, ha, hle, hlt, hx⟩
  · rw [Nat.zero_add] at hend
    exact Or.inl ⟨hend, x, hx⟩
  · rw [Nat.zero_add] at hle hlt hx
    obtain ⟨-, -, n, hn, hc, hpost⟩ := Segments.cons_iff.mp ha
    have hsize : n.size = xs.length := hc.size
    let skip := offset - (chunkqBytes pre).length
    have hskip : offset - ((chunkqBytes pre).length + xs.length - n.size) = skip := by omega
    have hpostne : ∀ s ∈ post, s.2.2 ≠ [] := by
      rcases hp with hall | ⟨b, hone⟩
      · exact fun s hs => hall s (List.mem_append_right _ (List.mem_cons_of_mem _ hs))
      · have hlen := congrArg List.length hone
        rw [List.length_append, List.length_cons, List.length_singleton] at hlen
        obtain rfl : post = [] := List.length_eq_zero_iff.mp (by omega)
        exact fun s hs => (nomatch hs)
    have hpostoff : ∀ s ∈ post, s.2.1 = 0 := by
      intro s hs
      apply hshape.unread
      cases pre with
      | nil => exact hs
      | cons u us => exact List.mem_append_right _ (List.mem_cons_of_mem _ hs)
    have hbytes : (chunkqBytes (pre ++ (a, off, xs) :: post)).drop offset =
        xs.drop skip ++ chunkqBytes post := by
      rw [chunkqBytes_append, chunkqBytes_cons, List.drop_append, List.drop_of_length_le hle,
        List.nil_append, List.drop_append_of_le_length (by change skip ≤ xs.length; omega)]
    exact Or.inr ⟨a, n, _, off, xs, skip, post, hx, hn, hc, hskip, by omega, hpost, hpostoff,
      hpostne, hbytes⟩

theorem chunkqPeek_spec (h : ChunkqHolds q L) (offset size : ℕ) :
    ∃ r out, chunkqPeek q offset size = some (r, out) ∧
      ByteQueueStep L (.peek offset size, r, out) L := by
  rcases h.locate offset with
    ⟨hend, x, hx⟩ | ⟨a, n, x, off, xs, skip, post, hx, hn, hc, hskip, hlt, hpost, hoff, hne, hbytes⟩
  · refine ⟨-1, [], ?_, .peekFailed hend⟩
    simp only [chunkqPeek, hx, Option.bind_eq_bind, Option.bind_some, Option.pure_def]
  · have hsize : n.size = xs.length := hc.size
    have hfits := hc.fits
    have hk : (if n.size - skip > size then size else n.size - skip) =
        min (xs.drop skip).length size := by
      rw [List.length_drop]
      split_ifs <;> omega
    obtain ⟨-, hc'⟩ := hc.consume (k := skip) hlt.le
    obtain ⟨hread, -⟩ := hc'.consume (Nat.min_le_left (xs.drop skip).length size)
    have hload : chunknLoad q n (n.offset + skip) (min (xs.drop skip).length size) =
        some ((xs.drop skip).take size) := by
      rw [take_min_length] at hread
      rw [List.length_drop] at hread ⊢
      rw [chunknLoad_eq (by omega)]
      exact congrArg some hread
    have hloop := chunkqPeekLoop_spec (o := (xs.drop skip).take size)
      (r := size - min (xs.drop skip).length size) hpost hoff hne
      (Nat.lt_succ_of_le (Nat.sub_le _ _))
    have hleft : size - min (xs.drop skip).length size = size - (xs.drop skip).length := by omega
    have hout : (xs.drop skip).take size ++
        (chunkqBytes post).take (size - min (xs.drop skip).length size) =
        (L.drop offset).take size := by
      rw [hbytes, List.take_append, hleft]
    have hin : offset < L.length := by
      have hlen := congrArg List.length hbytes
      rw [List.length_append, List.length_drop, List.length_drop] at hlen
      omega
    rw [hout] at hloop
    refine ⟨_, _, ?_, .peek hin⟩
    simp only [chunkqPeek, hx, hn, hskip, hk, hload, Option.bind_eq_bind, Option.bind_some,
      Option.pure_def]
    rw [hloop]
    rfl

/-! ## Clearing -/

theorem chunkqFreeLoop_spec {fuel : ℕ} {p : Option ℕ} (hs : q.store.Sound)
    (h : Segments Chunkn.link (Chunkn.Carries chunk) q.store.nodes p ss) (hfuel : ss.length ≤ fuel) :
    ∃ q', chunkqFreeLoop fuel q p = some q' ∧ q'.store.Sound ∧ q'.chunk = q.chunk := by
  induction fuel generalizing q p ss with
  | zero =>
      obtain rfl : ss = [] := List.length_eq_zero_iff.mp (Nat.le_zero.mp hfuel)
      obtain rfl : p = none := h.start
      exact ⟨q, rfl, hs, rfl⟩
  | succ fuel ih =>
      cases ss with
      | nil =>
          obtain rfl : p = none := h.start
          exact ⟨q, rfl, hs, rfl⟩
      | cons s rest =>
          obtain ⟨a, c⟩ := s
          obtain ⟨rfl, ha, n, hn, -, hrest⟩ := Segments.cons_iff.mp h
          obtain ⟨q', hloop, hs', hchunk⟩ := ih (q := chunknFree q a) (hs.give hn _)
            (hrest.update ha none) (Nat.le_of_succ_le_succ hfuel)
          refine ⟨q', ?_, hs', hchunk⟩
          simp only [chunkqFreeLoop, hn, Option.bind_eq_bind, Option.bind_some]
          exact hloop

theorem Packing.length_le (h : Packing ss) : ss.length ≤ (chunkqBytes ss).length + 1 := by
  rcases h with hall | ⟨a, rfl⟩
  · induction ss with
    | nil => exact Nat.zero_le _
    | cons s ss ih =>
        have hpos := List.length_pos_of_ne_nil (hall s List.mem_cons_self)
        have hrest := ih fun u hu => hall u (List.mem_cons_of_mem _ hu)
        rw [chunkqBytes_cons, List.length_append, List.length_cons]
        omega
  · exact le_rfl

theorem chunkqClear_spec (h : ChunkqHolds q L) :
    ∃ q', chunkqClear q = some q' ∧ ChunkqHolds q' [] := by
  obtain ⟨⟨ss, hshape, hp, rfl⟩, hsize, hchunk⟩ := h
  have hfuel : ss.length ≤ q.size + 1 := hsize ▸ hp.length_le
  obtain ⟨q', hloop, hs', hchunk'⟩ := chunkqFreeLoop_spec hshape.sound hshape.nodes hfuel
  refine ⟨{ q' with head := none, tail := none, size := 0 }, ?_, ⟨[], ⟨hs', Segments.nil, rfl, ?_⟩,
    Or.inl ?_, rfl⟩, rfl, hchunk' ▸ hchunk⟩
  · simp only [chunkqClear, hloop, Option.bind_eq_bind, Option.bind_some, Option.pure_def]
  · exact fun _ hs => (nomatch hs)
  · exact fun _ hs => (nomatch hs)

/-! ## Runs -/

theorem chunkqStep_spec (h : ChunkqHolds q L) (op : ChunkqOp) :
    ∃ r q' L', chunkqStep env q op = some (r, q') ∧ ByteQueueStep L (op, r) L' ∧
      ChunkqHolds q' L' := by
  cases op with
  | append buffer =>
      obtain ⟨r, q', L', happ, hspec, h', -⟩ := chunkqAppend_spec env h buffer
      refine ⟨(r, []), q', L', ?_, hspec, h'⟩
      simp only [chunkqStep, happ, Option.bind_eq_bind, Option.bind_some, Option.pure_def]
  | read size =>
      obtain ⟨r, out, q', L', hread, hspec, h'⟩ := chunkqRead_spec h size
      refine ⟨(r, out), q', L', ?_, hspec, h'⟩
      simp only [chunkqStep, hread, Option.bind_eq_bind, Option.bind_some, Option.pure_def]
  | peek offset size =>
      obtain ⟨r, out, hpeek, hspec⟩ := chunkqPeek_spec h offset size
      refine ⟨(r, out), q, L, ?_, hspec, h⟩
      simp only [chunkqStep, hpeek, Option.bind_eq_bind, Option.bind_some, Option.pure_def]
  | clear =>
      obtain ⟨q', hclear, h'⟩ := chunkqClear_spec h
      refine ⟨(0, []), q', [], ?_, .clear, h'⟩
      simp only [chunkqStep, hclear, Option.bind_eq_bind, Option.bind_some, Option.pure_def]

theorem chunkqHolds_alloc (hc : 0 < chunk) : ChunkqHolds (chunkqAlloc chunk) [] :=
  ⟨⟨[], ⟨NodeStore.sound_empty, Segments.nil, rfl, fun _ hs => (nomatch hs)⟩,
    Or.inl fun _ hs => (nomatch hs), rfl⟩, rfl, hc⟩

/-- Every run of a chunk queue is one of a byte queue. -/
theorem chunkqRun_fifo (env : Allocator) (chunk : ℕ) (hc : 0 < chunk) (ops : List ChunkqOp) :
    ∃ rs q' L, runAll (chunkqStep env) (chunkqAlloc chunk) ops = some (rs, q') ∧
      rs.length = ops.length ∧ Run ByteQueueStep [] (ops.zip rs) L ∧ ChunkqHolds q' L ∧
      q'.size = L.length := by
  have hops : Meets (chunkqStep env) (fun _ _ => True) (chunkqAlloc chunk) ops :=
    meets_of_forall fun _ _ _ => trivial
  obtain ⟨rs, q', L, hrun, hlen, hspec, h'⟩ := runAll_simulates ChunkqHolds ByteQueueStep
    (fun q L op h _ => chunkqStep_spec h op) (chunkqHolds_alloc hc) hops
  exact ⟨rs, q', L, hrun, hlen, hspec, h', h'.size⟩

theorem chunkqRun_fifo_two : ∃ rs q' L,
    runAll (chunkqStep ⟨fun _ => true, fun _ _ => 0⟩) (chunkqAlloc 2)
      [.append [1, 2, 3], .read 2] = some (rs, q') ∧
    rs.length = 2 ∧ Run ByteQueueStep [] ([.append [1, 2, 3], .read 2].zip rs) L ∧
    ChunkqHolds q' L ∧ q'.size = L.length :=
  chunkqRun_fifo ⟨fun _ => true, fun _ _ => 0⟩ 2 (by norm_num) [.append [1, 2, 3], .read 2]

end Carthage
