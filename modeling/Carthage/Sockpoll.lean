import Carthage.Iopoll
import Carthage.Runs

/-!
# Serving polled sockets

`sockpoll.c` over `select`: a listening socket and the clients that were accepted on it. In every
run the watched descriptors are the listening socket and the clients that were not dropped yet; a
handler is called on one of these only, and a round calls it on each one that is ready.
-/

namespace Carthage

/-- What `__sockpoll_read` and `__sockpoll_write` did. -/
inductive SockEvent
  | accepted (client : ℤ)
  | refused
  | read (sock : ℤ)
  | dropped (sock : ℤ)
  | wrote (sock : ℤ)

/-- `sockpoll_t`, without the handlers. -/
structure SockpollFields (U : Type) where
  sock : ℤ
  backend : IopollSelect
  user : U

/-- A `sockpoll_t` with what was done on it so far. -/
structure Sockpoll (U : Type) extends SockpollFields U where
  events : List SockEvent

/-- The handlers of a server, its loop flag, and the system under it. The first two handlers are
given the user data, `write_f` is given the `sockpoll_t`. -/
structure SockEnv (U : Type) where
  acceptF : U → ℤ → ℤ × U
  readF : Option (U → ℤ → ℤ × U)
  writeF : Option (SockpollFields U → ℤ → ℤ × SockpollFields U)
  isLooping : U → Bool
  close : U → ℤ → U
  select : U → ℤ → Option FdSet → Option FdSet → Option ℕ → ℤ × FdSet × FdSet × U

namespace Sockpoll

variable {U : Type} (env : SockEnv U)

/-- Whether a client has to go: its handler fails, or there is none. -/
def readClient (user : U) (sock : ℤ) : Bool × U :=
  match env.readF with
  | none => (true, user)
  | some f =>
      let (rc, user) := f user sock
      (decide (rc < 0), user)

/-- `__sockpoll_read`. -/
def read (p : Sockpoll U) (sock : ℤ) : Option (ℤ × Sockpoll U) :=
  if sock = p.sock then
    let (client, user) := env.acceptF p.user sock
    if client < 0 then
      some (-1, { p with user := env.close user client, events := p.events ++ [.refused] })
    else do
      let io ← p.backend.add client
      return (0, { p with
        backend := io, user := user, events := p.events ++ [.accepted client] })
  else
    let (failed, user) := readClient env p.user sock
    if failed then do
      let io ← p.backend.remove sock
      return (-2, { p with
        backend := io, user := env.close user sock, events := p.events ++ [.dropped sock] })
    else some (0, { p with user := user, events := p.events ++ [.read sock] })

/-- `__sockpoll_write`, with the handler that there is: it gets the whole `sockpoll_t`. -/
def write (f : SockpollFields U → ℤ → ℤ × SockpollFields U) (p : Sockpoll U) (sock : ℤ) :
    Option (ℤ × Sockpoll U) :=
  let (rc, fields) := f p.toSockpollFields sock
  some (rc, { fields with events := p.events ++ [.wrote sock] })

/-- The poll that `sockpoll_alloc` sets up. -/
def iopoll (timeout : ℤ) : Iopoll (Sockpoll U) where
  readF := some (read env)
  writeF := env.writeF.map write
  isLooping p := env.isLooping p.user
  timeout := iopollTimeout timeout
  backend p := p.backend
  select p nfds rfds wfds ptimeout :=
    let (x, rfds, wfds, user) := env.select p.user nfds rfds wfds ptimeout
    (x, rfds, wfds, { p with user := user })

end Sockpoll

variable {U : Type} (env : SockEnv U)

def sockpollAlloc (serverSock : ℤ) (user : U) : Option (Sockpoll U) := do
  let io ← IopollSelect.alloc.add serverSock
  return ⟨⟨serverSock, io, user⟩, []⟩

/-- At most `n` rounds of `sockpoll_loop`. -/
def sockpollLoop (timeout : ℤ) (n : ℕ) (p : Sockpoll U) : Option (Option ℤ × Sockpoll U) :=
  (Sockpoll.iopoll env timeout).loop n (fun _ => false) (fun _ => false) p

/-! ## What a server may do -/

/-- What is asked of the handlers and the system; `opened` are the open descriptors. Accepting makes
a new one, which is small enough for a set, and closing ends one. The other handlers leave the same
descriptors open, and `write_f` leaves the socket and the poll of the `sockpoll_t` alone. A set that
`select` was given loses bits only. -/
structure SockEnv.Contract (opened : U → ℤ → Prop) : Prop where
  nonneg : ∀ u x, opened u x → 0 ≤ x
  select : ∀ u nfds rfds wfds timeout rc rfds' wfds' u',
    env.select u nfds rfds wfds timeout = (rc, rfds', wfds', u') →
    (∀ fds, rfds = some fds → ∀ x, rfds' x = true → fds x = true) ∧
    (∀ fds, wfds = some fds → ∀ x, wfds' x = true → fds x = true) ∧ opened u' = opened u
  accept : ∀ u x c u', env.acceptF u x = (c, u') → if c < 0 then opened u' = opened u
    else ¬ opened u c ∧ c < fdSetSize ∧ ∀ y, opened u' y ↔ opened u y ∨ y = c
  read : ∀ f ∈ env.readF, ∀ u x rc u', f u x = (rc, u') → opened u' = opened u
  write : ∀ f ∈ env.writeF, ∀ p x rc p', f p x = (rc, p') →
    p'.sock = p.sock ∧ p'.backend = p.backend ∧ opened p'.user = opened p.user
  close : ∀ u x y, opened (env.close u x) y ↔ opened u y ∧ y ≠ x

/-- The clients of a server, and the one that it just dropped: a handler is called on a client or
on the listening socket, except that a descriptor can be dropped and then written to. -/
inductive ServeStep (sock : ℤ) : List ℤ × Option ℤ → SockEvent → List ℤ × Option ℤ → Prop
  | accepted {clients : List ℤ} {gone : Option ℤ} {c : ℤ} : c ≠ sock → c ∉ clients →
      ServeStep sock (clients, gone) (.accepted c) (c :: clients, none)
  | refused {clients : List ℤ} {gone : Option ℤ} :
      ServeStep sock (clients, gone) .refused (clients, none)
  | read {clients : List ℤ} {gone : Option ℤ} {x : ℤ} : x ∈ clients →
      ServeStep sock (clients, gone) (.read x) (clients, none)
  | dropped {clients : List ℤ} {gone : Option ℤ} {x : ℤ} : x ∈ clients →
      ServeStep sock (clients, gone) (.dropped x) (clients.erase x, some x)
  | wrote {clients : List ℤ} {gone : Option ℤ} {x : ℤ} :
      x = sock ∨ x ∈ clients ∨ gone = some x →
      ServeStep sock (clients, gone) (.wrote x) (clients, gone)

/-- The descriptor that a handler was called on, and whether to write. -/
def SockEvent.call (sock : ℤ) : SockEvent → ℤ × Bool
  | .accepted _ => (sock, false)
  | .refused => (sock, false)
  | .read x => (x, false)
  | .dropped x => (x, false)
  | .wrote x => (x, true)

/-- The calls that two sets ask for, below `n`. -/
def dueCalls (rfds wfds : FdSet) (n : ℕ) : List (ℤ × Bool) :=
  (List.range n).flatMap fun i : ℕ =>
    (if rfds i then [((i : ℤ), false)] else []) ++ (if wfds i then [((i : ℤ), true)] else [])

namespace Sockpoll

variable {env} {opened : U → ℤ → Prop} {opened₀ : ℤ → Prop} {sock x : ℤ} {p p' : Sockpoll U}
  {clients clients' : List ℤ} {gone gone' : Option ℤ}

/-- The descriptors that were open before are still, and the clients are open and watched. -/
structure Serves (opened : U → ℤ → Prop) (opened₀ : ℤ → Prop) (sock : ℤ) (p : Sockpoll U)
    (clients : List ℤ) (gone : Option ℤ) : Prop where
  listens : p.sock = sock
  covers : p.backend.Covers
  own : opened₀ sock
  nodup : clients.Nodup
  fresh : ∀ x ∈ clients, ¬ opened₀ x
  watched : ∀ x, p.backend.fds x = true ↔ x = sock ∨ x ∈ clients
  descriptors : ∀ x, opened p.user x ↔ opened₀ x ∨ x ∈ clients
  events : Run (ServeStep sock) ([], none) p.events (clients, gone)

/-- A call on a watched descriptor: the others that are watched stay so. -/
structure Called (opened : U → ℤ → Prop) (opened₀ : ℤ → Prop) (sock x : ℤ) (write : Bool)
    (p p' : Sockpoll U) (clients : List ℤ) (gone : Option ℤ) : Prop where
  serves : Serves opened opened₀ sock p' clients gone
  event : ∃ e, p'.events = p.events ++ [e] ∧ e.call sock = (x, write)
  others : ∀ y, y ≠ x → p.backend.fds y = true → p'.backend.fds y = true
  self : x = sock ∨ x ∈ clients ∨ gone = some x

namespace Serves

theorem sock_notMem (h : Serves opened opened₀ sock p clients gone) : sock ∉ clients :=
  fun hmem => h.fresh sock hmem h.own

/-- The listening socket is ready. -/
theorem accept (henv : env.Contract opened) (h : Serves opened opened₀ sock p clients gone) :
    ∃ rc p' clients', p.read env sock = some (rc, p') ∧
      Called opened opened₀ sock sock false p p' clients' none := by
  obtain ⟨client, user, haccept⟩ : ∃ c u, env.acceptF p.user sock = (c, u) := ⟨_, _, rfl⟩
  have haccepted := henv.accept _ _ _ _ haccept
  unfold Sockpoll.read
  rw [if_pos h.listens.symm, haccept]
  dsimp only
  by_cases hclient : client < 0
  · rw [if_pos hclient] at haccepted
    rw [if_pos hclient]
    refine ⟨-1, _, clients, rfl, ⟨⟨h.listens, h.covers, h.own, h.nodup, h.fresh, h.watched,
      fun x => ?_, h.events.append (.cons .refused (.nil _))⟩, ⟨_, rfl, rfl⟩, fun _ _ hy => hy,
      Or.inl rfl⟩⟩
    dsimp only
    rw [henv.close, haccepted, ← h.descriptors x]
    refine and_iff_left_of_imp fun hx => ?_
    have := henv.nonneg _ _ hx
    omega
  · rw [if_neg hclient] at haccepted
    rw [if_neg hclient]
    obtain ⟨hnew, hsize, hopened⟩ := haccepted
    rw [h.descriptors client, not_or] at hnew
    obtain ⟨io, hadd, hcovers, hfds⟩ := h.covers.add (not_lt.mp hclient) hsize
    have hne : client ≠ sock := by
      rintro rfl
      exact hnew.1 h.own
    simp only [hadd, Option.bind_eq_bind, Option.bind_some, Option.pure_def]
    refine ⟨0, _, client :: clients, rfl, ⟨⟨h.listens, hcovers, h.own,
      List.nodup_cons.mpr ⟨hnew.2, h.nodup⟩, fun x hx => ?_, fun x => ?_, fun x => ?_,
      h.events.append (.cons (.accepted hne hnew.2) (.nil _))⟩, ⟨_, rfl, rfl⟩, fun y _ hy => ?_,
      Or.inl rfl⟩⟩
    · rcases List.mem_cons.mp hx with rfl | hx
      · exact hnew.1
      · exact h.fresh x hx
    · dsimp only
      rw [hfds, Function.update_apply, List.mem_cons]
      split_ifs with hx
      · simp [hx]
      · rw [h.watched x]
        simp [hx]
    · dsimp only
      rw [hopened, h.descriptors x, List.mem_cons]
      tauto
    · dsimp only
      rw [hfds, Function.update_apply]
      split_ifs
      · rfl
      · exact hy

theorem readClient_opened (henv : env.Contract opened) {user user' : U} {failed : Bool}
    (h : readClient env user x = (failed, user')) : opened user' = opened user := by
  unfold readClient at h
  cases hf : env.readF with
  | none =>
      rw [hf] at h
      obtain ⟨-, rfl⟩ := Prod.mk.inj h
      rfl
  | some f =>
      rw [hf] at h
      obtain ⟨-, rfl⟩ := Prod.mk.inj h
      exact henv.read f hf _ _ _ _ rfl

theorem answer (henv : env.Contract opened) (h : Serves opened opened₀ sock p clients gone)
    (hx : x ∈ clients) :
    ∃ rc p' clients' gone', p.read env x = some (rc, p') ∧
      Called opened opened₀ sock x false p p' clients' gone' := by
  have hne : x ≠ sock := by
    rintro rfl
    exact h.sock_notMem hx
  obtain ⟨failed, user, hrun⟩ : ∃ failed u, readClient env p.user x = (failed, u) := ⟨_, _, rfl⟩
  have hopened := readClient_opened henv hrun
  unfold Sockpoll.read
  rw [if_neg (h.listens ▸ hne), hrun]
  dsimp only
  cases failed with
  | false =>
      refine ⟨0, _, clients, none, if_neg Bool.false_ne_true, ⟨⟨h.listens, h.covers, h.own, h.nodup,
        h.fresh, h.watched, fun y => ?_, h.events.append (.cons (.read hx) (.nil _))⟩,
        ⟨_, rfl, rfl⟩, fun _ _ hy => hy, Or.inr (Or.inl hx)⟩⟩
      dsimp only
      rw [hopened, h.descriptors y]
  | true =>
      obtain ⟨io, hremove, hcovers, hfds⟩ := h.covers.remove ((h.watched x).mpr (Or.inr hx))
      rw [if_pos rfl, hremove, Option.bind_eq_bind, Option.bind_some]
      refine ⟨-2, _, clients.erase x, some x, rfl, ⟨⟨h.listens, hcovers, h.own, h.nodup.erase x,
        fun y hy => h.fresh y (List.mem_of_mem_erase hy), fun y => ?_, fun y => ?_,
        h.events.append (.cons (.dropped hx) (.nil _))⟩, ⟨_, rfl, rfl⟩, fun y hyx hy => ?_,
        Or.inr (Or.inr rfl)⟩⟩
      · dsimp only
        rw [hfds, Function.update_apply, h.nodup.mem_erase_iff]
        split_ifs with hyx
        · simp [hyx, hne]
        · rw [h.watched y]
          simp [hyx]
      · dsimp only
        rw [henv.close, hopened, h.descriptors y, h.nodup.mem_erase_iff]
        have hother : opened₀ y → y ≠ x := fun ho heq => h.fresh x hx (heq ▸ ho)
        tauto
      · dsimp only
        rw [hfds, Function.update_of_ne hyx]
        exact hy

theorem read (henv : env.Contract opened) (h : Serves opened opened₀ sock p clients gone)
    (hx : p.backend.fds x = true) :
    ∃ rc p' clients' gone', p.read env x = some (rc, p') ∧
      Called opened opened₀ sock x false p p' clients' gone' := by
  rcases (h.watched x).mp hx with rfl | hx
  · obtain ⟨rc, p', clients', hrun, hcalled⟩ := h.accept henv
    exact ⟨rc, p', clients', none, hrun, hcalled⟩
  · exact h.answer henv hx

theorem write (henv : env.Contract opened) (h : Serves opened opened₀ sock p clients gone)
    {f : SockpollFields U → ℤ → ℤ × SockpollFields U} (hf : f ∈ env.writeF) (hx : x = sock ∨ x ∈ clients ∨ gone = some x) :
    ∃ rc p', Sockpoll.write f p x = some (rc, p') ∧
      Called opened opened₀ sock x true p p' clients gone := by
  obtain ⟨rc, fields, hrun⟩ : ∃ rc t, f p.toSockpollFields x = (rc, t) := ⟨_, _, rfl⟩
  obtain ⟨hsock, hbackend, hopened⟩ := henv.write f hf _ _ _ _ hrun
  unfold Sockpoll.write
  rw [hrun]
  refine ⟨rc, _, rfl, ⟨⟨hsock.trans h.listens, hbackend ▸ h.covers, h.own, h.nodup, h.fresh,
    fun y => ?_, fun y => ?_, h.events.append (.cons (.wrote hx) (.nil _))⟩, ⟨_, rfl, rfl⟩,
    fun y _ hy => ?_, hx⟩⟩
  · dsimp only
    rw [hbackend, h.watched y]
  · dsimp only
    rw [hopened, h.descriptors y]
  · dsimp only
    rw [hbackend]
    exact hy

end Serves

/-! ## A round -/

section Round

variable {rfds wfds : FdSet} (timeout : ℤ)

theorem dueCalls_succ (rfds wfds : FdSet) (n : ℕ) :
    dueCalls rfds wfds (n + 1) = dueCalls rfds wfds n ++
      ((if rfds n then [((n : ℤ), false)] else []) ++
        (if wfds n then [((n : ℤ), true)] else [])) := by
  unfold dueCalls
  rw [List.range_succ, List.flatMap_append, List.flatMap_singleton]

theorem dueCalls_prefix {m n : ℕ} (h : m ≤ n) : dueCalls rfds wfds m <+: dueCalls rfds wfds n := by
  induction n, h using Nat.le_induction with
  | base => exact List.prefix_refl _
  | succ n _ ih =>
      rw [dueCalls_succ]
      exact ih.trans (List.prefix_append _ _)

theorem dueCalls_eq {m n : ℕ} (h : m ≤ n)
    (hout : ∀ i : ℕ, m ≤ i → rfds i = false ∧ wfds i = false) :
    dueCalls rfds wfds n = dueCalls rfds wfds m := by
  induction n, h using Nat.le_induction with
  | base => rfl
  | succ n hmn ih =>
      obtain ⟨hr, hw⟩ := hout n hmn
      rw [dueCalls_succ, hr, hw, ih]
      simp

theorem Serves.readReady (henv : env.Contract opened)
    (h : Serves opened opened₀ sock p clients gone) (hx : 0 ≤ x) (hx' : x < fdSetSize)
    (hready : rfds x = true → p.backend.fds x = true) :
    ∃ p' clients' gone' new, Iopoll.serve (Sockpoll.iopoll env timeout).readF rfds x p = some p' ∧
      Serves opened opened₀ sock p' clients' gone' ∧ p'.events = p.events ++ new ∧
      new.map (SockEvent.call sock) = (if rfds x then [(x, false)] else []) ∧
      (∀ y, y ≠ x → p.backend.fds y = true → p'.backend.fds y = true) ∧
      (p.backend.fds x = true → x = sock ∨ x ∈ clients' ∨ gone' = some x) := by
  unfold Iopoll.serve fdIsset
  rw [if_pos ⟨hx, hx'⟩, Option.bind_eq_bind, Option.bind_some]
  cases hr : rfds x with
  | false =>
      refine ⟨p, clients, gone, [], if_neg Bool.false_ne_true, h, (List.append_nil _).symm, rfl,
        fun _ _ hy => hy, fun hy => ?_⟩
      exact ((h.watched x).mp hy).imp_right Or.inl
  | true =>
      obtain ⟨rc, p', clients', gone', hrun, hserves, ⟨e, hevents, hcall⟩, hothers, hself⟩ :=
        h.read henv (hready hr)
      refine ⟨p', clients', gone', [e], ?_, hserves, hevents, by simp [hcall], hothers,
        fun _ => hself⟩
      simp only [Sockpoll.iopoll, hrun, if_true, Option.bind_eq_bind, Option.bind_some,
        Option.pure_def]

theorem Serves.writeReady (henv : env.Contract opened)
    (h : Serves opened opened₀ sock p clients gone) (hx : 0 ≤ x) (hx' : x < fdSetSize)
    (hwrite : env.writeF = none → wfds x = false)
    (hready : wfds x = true → x = sock ∨ x ∈ clients ∨ gone = some x) :
    ∃ p' new, Iopoll.serve (Sockpoll.iopoll env timeout).writeF wfds x p = some p' ∧
      Serves opened opened₀ sock p' clients gone ∧ p'.events = p.events ++ new ∧
      new.map (SockEvent.call sock) = (if wfds x then [(x, true)] else []) ∧
      ∀ y, y ≠ x → p.backend.fds y = true → p'.backend.fds y = true := by
  unfold Iopoll.serve fdIsset
  rw [if_pos ⟨hx, hx'⟩, Option.bind_eq_bind, Option.bind_some]
  cases hw : wfds x with
  | false =>
      exact ⟨p, [], if_neg Bool.false_ne_true, h, (List.append_nil _).symm, rfl, fun _ _ hy => hy⟩
  | true =>
      cases hf : env.writeF with
      | none =>
          rw [hwrite hf] at hw
          cases hw
      | some f =>
          obtain ⟨rc, p', hrun, hserves, ⟨e, hevents, hcall⟩, hothers, -⟩ :=
            h.write henv (Option.mem_def.mpr hf) (hready hw)
          refine ⟨p', [e], ?_, hserves, hevents, by simp [hcall], hothers⟩
          simp only [Sockpoll.iopoll, hf, hrun, if_true, Option.map_some, Option.bind_eq_bind,
            Option.bind_some, Option.pure_def]

/-- A round that has come to the descriptor `y`: those behind are watched if they were ready, and
the calls for those before were made. -/
structure Visited (opened : U → ℤ → Prop) (opened₀ : ℤ → Prop) (sock : ℤ) (rfds wfds : FdSet)
    (p : Sockpoll U) (y : ℤ) (p' : Sockpoll U) : Prop where
  serves : ∃ clients gone, Serves opened opened₀ sock p' clients gone
  reads : ∀ z, y ≤ z → rfds z = true → p'.backend.fds z = true
  writes : ∀ z, y ≤ z → wfds z = true → p'.backend.fds z = true
  size : y ≤ fdSetSize
  calls : ∃ (n : ℕ) (new : List SockEvent), y = n ∧ p'.events = p.events ++ new ∧
    new.map (SockEvent.call sock) = dueCalls rfds wfds n

theorem Visited.step {y : ℤ} (henv : env.Contract opened)
    (h : Visited opened opened₀ sock rfds wfds p y p') (hy : 0 ≤ y) (hmax : y ≤ p'.backend.fdmax)
    (hwrite : env.writeF = none → wfds = fun _ => false) :
    ∃ p₁ p₂, Iopoll.serve (Sockpoll.iopoll env timeout).readF rfds y p' = some p₁ ∧
      Iopoll.serve (Sockpoll.iopoll env timeout).writeF wfds y p₁ = some p₂ ∧
      Visited opened opened₀ sock rfds wfds p (y + 1) p₂ := by
  obtain ⟨⟨clients, gone, hserves⟩, hreads, hwrites, -, n, new, rfl, hevents, hcalls⟩ := h
  have hsize := hmax.trans_lt hserves.covers.upper
  obtain ⟨p₁, clients₁, gone₁, new₁, hrun₁, h₁, hevents₁, hcalls₁, hothers₁, hself₁⟩ :=
    hserves.readReady timeout henv hy hsize (hreads n le_rfl)
  obtain ⟨p₂, new₂, hrun₂, h₂, hevents₂, hcalls₂, hothers₂⟩ :=
    h₁.writeReady timeout henv hy hsize (fun hf => by rw [hwrite hf])
      (fun hw => hself₁ (hwrites n le_rfl hw))
  have hlater : ∀ z, (n : ℤ) + 1 ≤ z → p'.backend.fds z = true → p₂.backend.fds z = true :=
    fun z hz hfd => hothers₂ z (by omega) (hothers₁ z (by omega) hfd)
  refine ⟨p₁, p₂, hrun₁, hrun₂, ⟨⟨clients₁, gone₁, h₂⟩,
    fun z hz hr => hlater z hz (hreads z (by omega) hr),
    fun z hz hw => hlater z hz (hwrites z (by omega) hw), by omega, n + 1,
    new ++ (new₁ ++ new₂), rfl, ?_, ?_⟩⟩
  · rw [hevents₂, hevents₁, hevents, List.append_assoc, List.append_assoc]
  · rw [List.map_append, List.map_append, hcalls, hcalls₁, hcalls₂, dueCalls_succ]

theorem Serves.round (henv : env.Contract opened) (h : Serves opened opened₀ sock p clients gone)
    (hr : ∀ x, rfds x = true → p.backend.fds x = true)
    (hw : ∀ x, wfds x = true → p.backend.fds x = true)
    (hwrite : env.writeF = none → wfds = fun _ => false) :
    ∃ p' clients' gone' new,
      (Sockpoll.iopoll env timeout).visit rfds wfds (fdSetSize.toNat + 1) 0 p = some p' ∧
      Serves opened opened₀ sock p' clients' gone' ∧ p'.events = p.events ++ new ∧
      new.map (SockEvent.call sock) <+: dueCalls rfds wfds fdSetSize.toNat ∧
      (env.isLooping p'.user = true →
        new.map (SockEvent.call sock) = dueCalls rfds wfds fdSetSize.toNat) := by
  have hstart : Visited opened opened₀ sock rfds wfds p 0 p :=
    ⟨⟨clients, gone, h⟩, fun z _ => hr z, fun z _ => hw z, by decide, 0, [], rfl,
      (List.append_nil _).symm, rfl⟩
  have hfuel : fdSetSize - 0 < ((fdSetSize.toNat + 1 : ℕ) : ℤ) := by
    unfold fdSetSize
    omega
  obtain ⟨y, p', hrun, hinv, hend⟩ := Iopoll.visit_rule (p := Sockpoll.iopoll env timeout)
    (Visited opened opened₀ sock rfds wfds p)
    (fun y p' hinv => by
      obtain ⟨clients', gone', h'⟩ := hinv.serves
      exact h'.covers.upper)
    (fun y p' hy hmax hinv => hinv.step timeout henv hy hmax hwrite) le_rfl hfuel
    (Nat.succ_pos _) hstart
  obtain ⟨⟨clients', gone', h'⟩, hreads, hwrites, hsize, n, new, rfl, hevents, hcalls⟩ := hinv
  have hn : n ≤ fdSetSize.toNat := by omega
  have hprefix : new.map (SockEvent.call sock) <+: dueCalls rfds wfds fdSetSize.toNat := by
    rw [hcalls]
    exact dueCalls_prefix hn
  refine ⟨p', clients', gone', new, hrun, h', hevents, hprefix, fun hloop => ?_⟩
  have hbelow : p'.backend.fdmax < n := hend.resolve_right (by
    change ¬ env.isLooping p'.user = false
    rw [hloop]
    exact Bool.noConfusion)
  have hout : ∀ z : ℤ, (n : ℤ) ≤ z → p'.backend.fds z ≠ true := fun z hz hfd => by
    have := (h'.covers.watched z hfd).2
    omega
  rw [hcalls, dueCalls_eq hn fun i hi => ⟨?_, ?_⟩]
  · exact Bool.eq_false_iff.mpr fun hbit => hout i (by omega) (hreads i (by omega) hbit)
  · exact Bool.eq_false_iff.mpr fun hbit => hout i (by omega) (hwrites i (by omega) hbit)

end Round

/-! ## The loop -/

section Loop

variable {rfds wfds : FdSet} (timeout : ℤ) {n : ℕ}

theorem iopollTimeout_pos (timeout : ℤ) : ¬ iopollTimeout timeout < 1 := by
  unfold iopollTimeout
  split_ifs <;> omega

/-- The set of the descriptors to write to, when there is a handler for them. -/
def writeSet (env : SockEnv U) (fds : FdSet) : FdSet :=
  if env.writeF.isSome then fds else fun _ => false

/-- What `select` is asked in a state. -/
def ask (env : SockEnv U) (p : Sockpoll U) : ℤ × FdSet × FdSet × U :=
  env.select p.user (p.backend.fdmax + 1) (some p.backend.fds)
    (if env.writeF.isSome then some p.backend.fds else none) none

theorem loop_stops (hloop : env.isLooping p.user = false) :
    (Sockpoll.iopoll env timeout).loop (n + 1) rfds wfds p = some (some 0, p) := by
  unfold Iopoll.loop
  exact if_neg (by
    change ¬ env.isLooping p.user = true
    rw [hloop]
    exact Bool.false_ne_true)

theorem loop_asks (hloop : env.isLooping p.user = true)
    (hwrite : env.writeF = none → wfds = fun _ => false) {rc : ℤ} {r w : FdSet} {user : U}
    (hask : ask env p = (rc, r, w, user)) :
    (Sockpoll.iopoll env timeout).loop (n + 1) rfds wfds p =
      if rc = 0 then some (some 1, { p with user := user })
      else if rc < 0 then some (some (-1), { p with user := user })
      else ((Sockpoll.iopoll env timeout).visit r (writeSet env w) (fdSetSize.toNat + 1) 0
          { p with user := user }).bind fun p' =>
        (Sockpoll.iopoll env timeout).loop n r (writeSet env w) p' := by
  have hlooping : (Sockpoll.iopoll env timeout).isLooping p = true := hloop
  have htimeout : ¬ (Sockpoll.iopoll env timeout).timeout < 1 := iopollTimeout_pos timeout
  unfold ask at hask
  conv => lhs; unfold Iopoll.loop
  rw [if_pos hlooping, if_neg htimeout]
  cases hf : env.writeF with
  | none =>
      obtain rfl := hwrite hf
      rw [hf] at hask
      have hselect : env.select p.user (p.backend.fdmax + 1) (some p.backend.fds) none none =
          (rc, r, w, user) := hask
      simp [Sockpoll.iopoll, writeSet, hf, hselect]
  | some f =>
      rw [hf] at hask
      have hselect : env.select p.user (p.backend.fdmax + 1) (some p.backend.fds)
          (some p.backend.fds) none = (rc, r, w, user) := hask
      simp [Sockpoll.iopoll, writeSet, hf, hselect]

theorem writeSet_none (fds : FdSet) (hf : env.writeF = none) :
    writeSet env fds = fun _ => false := by
  unfold writeSet
  rw [hf]
  rfl

theorem Serves.asked (henv : env.Contract opened) (h : Serves opened opened₀ sock p clients gone)
    {rc : ℤ} {r w : FdSet} {user : U} (hask : ask env p = (rc, r, w, user)) :
    Serves opened opened₀ sock { p with user := user } clients gone ∧
      (∀ x, r x = true → p.backend.fds x = true) ∧
      ∀ x, writeSet env w x = true → p.backend.fds x = true := by
  obtain ⟨hr, hw, hopened⟩ := henv.select _ _ _ _ _ _ _ _ _ hask
  refine ⟨⟨h.listens, h.covers, h.own, h.nodup, h.fresh, h.watched, fun x => ?_, h.events⟩,
    hr _ rfl, fun x hx => ?_⟩
  · dsimp only
    rw [hopened, h.descriptors x]
  · cases hf : env.writeF with
    | none =>
        rw [writeSet_none w hf] at hx
        cases hx
    | some f =>
        rw [hf] at hw
        unfold writeSet at hx
        rw [hf] at hx
        exact hw _ rfl x hx

theorem Serves.loop (henv : env.Contract opened) (h : Serves opened opened₀ sock p clients gone)
    (hwrite : env.writeF = none → wfds = fun _ => false) (n : ℕ) :
    ∃ rc p' clients' gone', (Sockpoll.iopoll env timeout).loop n rfds wfds p = some (rc, p') ∧
      Serves opened opened₀ sock p' clients' gone' := by
  induction n generalizing p clients gone rfds wfds with
  | zero => exact ⟨none, p, clients, gone, rfl, h⟩
  | succ n ih =>
      cases hloop : env.isLooping p.user with
      | false => exact ⟨some 0, p, clients, gone, loop_stops timeout hloop, h⟩
      | true =>
          obtain ⟨rc, r, w, user, hask⟩ : ∃ rc r w u, ask env p = (rc, r, w, u) :=
            ⟨_, _, _, _, rfl⟩
          obtain ⟨h₁, hr, hw⟩ := h.asked henv hask
          rw [loop_asks timeout hloop hwrite hask]
          by_cases hzero : rc = 0
          · exact ⟨some 1, _, clients, gone, if_pos hzero, h₁⟩
          by_cases hneg : rc < 0
          · exact ⟨some (-1), _, clients, gone, by rw [if_neg hzero, if_pos hneg], h₁⟩
          obtain ⟨p₂, clients₂, gone₂, -, hrun, h₂, -⟩ :=
            h₁.round timeout henv hr hw (writeSet_none w)
          rw [if_neg hzero, if_neg hneg, hrun, Option.bind_some]
          exact ih h₂ (writeSet_none w)

theorem loop_more (hwrite : env.writeF = none → wfds = fun _ => false)
    (hrun : (Sockpoll.iopoll env timeout).loop n rfds wfds p = some (none, p'))
    (hloop : env.isLooping p'.user = true) :
    (Sockpoll.iopoll env timeout).loop (n + 1) rfds wfds p =
      (Sockpoll.iopoll env timeout).loop 1 (fun _ => false) (fun _ => false) p' := by
  induction n generalizing p rfds wfds with
  | zero =>
      obtain ⟨-, rfl⟩ := Prod.mk.inj (Option.some.inj hrun)
      obtain ⟨rc, r, w, user, hask⟩ : ∃ rc r w u, ask env p = (rc, r, w, u) := ⟨_, _, _, _, rfl⟩
      rw [loop_asks timeout hloop hwrite hask, loop_asks timeout hloop (fun _ => rfl) hask]
  | succ n ih =>
      cases hfirst : env.isLooping p.user with
      | false =>
          rw [loop_stops timeout hfirst] at hrun
          cases hrun
      | true =>
          obtain ⟨rc, r, w, user, hask⟩ : ∃ rc r w u, ask env p = (rc, r, w, u) :=
            ⟨_, _, _, _, rfl⟩
          rw [loop_asks timeout hfirst hwrite hask] at hrun ⊢
          by_cases hzero : rc = 0
          · rw [if_pos hzero] at hrun
            cases hrun
          by_cases hneg : rc < 0
          · rw [if_neg hzero, if_pos hneg] at hrun
            cases hrun
          rw [if_neg hzero, if_neg hneg] at hrun ⊢
          obtain ⟨p₂, hvisit, hrun⟩ := Option.bind_eq_some_iff.mp hrun
          rw [hvisit, Option.bind_some]
          exact ih (writeSet_none w) hrun

end Loop

theorem serves_alloc {user : U} (hopen : opened user sock) (hzero : 0 ≤ sock)
    (hsize : sock < fdSetSize) :
    ∃ p, sockpollAlloc sock user = some p ∧ p.user = user ∧
      Serves opened (opened user) sock p [] none := by
  obtain ⟨io, hadd, hcovers, hfds⟩ := IopollSelect.covers_alloc.add hzero hsize
  unfold sockpollAlloc
  rw [hadd]
  refine ⟨_, rfl, rfl, ⟨rfl, hcovers, hopen, List.nodup_nil, fun x hx => (nomatch hx), fun x => ?_,
    fun x => ?_, .nil _⟩⟩
  · dsimp only
    rw [hfds, Function.update_apply]
    split_ifs with hx
    · simp [hx]
    · simp [hx, IopollSelect.alloc]
  · simp

end Sockpoll

/-! ## Every run -/

section Runs

variable {env : SockEnv U} {opened : U → ℤ → Prop} {sock : ℤ} {user : U}

/-- However long a server runs, and whatever is ready: the handlers were called on the listening
socket and on clients only, the watched descriptors are the listening socket and the clients that
were not dropped, and these are all that is open besides what was. -/
theorem sockpollLoop_serves (henv : env.Contract opened) (timeout : ℤ) (hopen : opened user sock)
    (hsize : sock < fdSetSize) (n : ℕ) :
    ∃ p₀ rc p clients gone, sockpollAlloc sock user = some p₀ ∧
      sockpollLoop env timeout n p₀ = some (rc, p) ∧
      Run (ServeStep sock) ([], none) p.events (clients, gone) ∧ clients.Nodup ∧
      (∀ x, p.backend.fds x = true ↔ x = sock ∨ x ∈ clients) ∧
      (∀ x, p.backend.fds x = true → x ≤ p.backend.fdmax) ∧
      (∀ x ∈ clients, ¬ opened user x) ∧
      ∀ x, opened p.user x ↔ opened user x ∨ x ∈ clients := by
  obtain ⟨p₀, halloc, -, h⟩ :=
    Sockpoll.serves_alloc hopen (henv.nonneg user sock hopen) hsize
  obtain ⟨rc, p, clients, gone, hrun, h'⟩ := h.loop timeout henv (fun _ => rfl) n
  exact ⟨p₀, rc, p, clients, gone, halloc, hrun, h'.events, h'.nodup, h'.watched,
    fun x hx => (h'.covers.watched x hx).2, h'.fresh, h'.descriptors⟩

/-- The next round of a server that has run for any time: every descriptor that `select` finds
ready is served, in order, the reader before the writer, unless a handler ends the loop. -/
theorem sockpollLoop_answers (henv : env.Contract opened) (timeout : ℤ) (hopen : opened user sock)
    (hsize : sock < fdSetSize) (n : ℕ) {p₀ p : Sockpoll U}
    (halloc : sockpollAlloc sock user = some p₀)
    (hrun : sockpollLoop env timeout n p₀ = some (none, p)) (hloop : env.isLooping p.user = true)
    {rc : ℤ} {rfds wfds : FdSet} {user' : U}
    (hask : Sockpoll.ask env p = (rc, rfds, wfds, user')) (hready : 0 < rc) :
    ∃ p' new, sockpollLoop env timeout (n + 1) p₀ = some (none, p') ∧
      p'.events = p.events ++ new ∧
      new.map (SockEvent.call sock) <+:
        dueCalls rfds (Sockpoll.writeSet env wfds) fdSetSize.toNat ∧
      (env.isLooping p'.user = true → new.map (SockEvent.call sock) =
        dueCalls rfds (Sockpoll.writeSet env wfds) fdSetSize.toNat) := by
  obtain ⟨p₀', halloc', -, h⟩ :=
    Sockpoll.serves_alloc hopen (henv.nonneg user sock hopen) hsize
  obtain rfl := Option.some.inj (halloc.symm.trans halloc')
  obtain ⟨rc', q, clients, gone, hrun', h₁⟩ := h.loop timeout henv (fun _ => rfl) n
  obtain ⟨-, rfl⟩ := Prod.mk.inj (Option.some.inj (hrun.symm.trans hrun'))
  obtain ⟨h₂, hr, hw⟩ := h₁.asked henv hask
  obtain ⟨p', clients', gone', new, hvisit, -, hevents, hprefix, hall⟩ :=
    h₂.round timeout henv hr hw (Sockpoll.writeSet_none wfds)
  refine ⟨p', new, ?_, hevents, hprefix, hall⟩
  unfold sockpollLoop
  rw [Sockpoll.loop_more timeout (fun _ => rfl) hrun hloop,
    Sockpoll.loop_asks timeout hloop (fun _ => rfl) hask,
    if_neg (by omega), if_neg (by omega), hvisit, Option.bind_some]
  rfl

/-- A system whose state is the list of the open descriptors. Two clients are accepted, the second
is dropped when it is read, and all that is watched is ready for both. -/
def twoClients : SockEnv (List ℤ) where
  acceptF opened _ :=
    if 4 ∈ opened then if 5 ∈ opened then (-1, opened) else (5, 5 :: opened) else (4, 4 :: opened)
  readF := some fun opened x => (if x = 5 then -1 else 0, opened)
  writeF := some fun p _ => (0, p)
  isLooping _ := true
  close opened x := opened.filter (· ≠ x)
  select opened _ rfds wfds _ :=
    (1, rfds.getD fun _ => false, wfds.getD fun _ => false, opened)

theorem opened_cons {opened : List ℤ} {c : ℤ} (hc : 0 ≤ c) (y : ℤ) :
    y ∈ c :: opened ∧ 0 ≤ y ↔ (y ∈ opened ∧ 0 ≤ y) ∨ y = c := by
  rw [List.mem_cons]
  constructor
  · rintro ⟨rfl | hy, hzero⟩
    · exact Or.inr rfl
    · exact Or.inl ⟨hy, hzero⟩
  · rintro (⟨hy, hzero⟩ | rfl)
    · exact ⟨Or.inr hy, hzero⟩
    · exact ⟨Or.inl rfl, hc⟩

theorem twoClients_contract : twoClients.Contract fun opened x => x ∈ opened ∧ 0 ≤ x where
  nonneg _ _ hx := hx.2
  select := by
    rintro u nfds rfds wfds timeout rc rfds' wfds' u' ⟨⟩
    refine ⟨?_, ?_, rfl⟩
    · rintro fds rfl x hx
      exact hx
    · rintro fds rfl x hx
      exact hx
  accept := by
    intro u x c u' h
    unfold twoClients at h
    dsimp only at h
    split_ifs at h with hfour hfive
    · obtain ⟨rfl, rfl⟩ := Prod.mk.inj h
      rfl
    · obtain ⟨rfl, rfl⟩ := Prod.mk.inj h
      exact ⟨fun hopen => hfive hopen.1, by decide, opened_cons (by decide)⟩
    · obtain ⟨rfl, rfl⟩ := Prod.mk.inj h
      exact ⟨fun hopen => hfour hopen.1, by decide, opened_cons (by decide)⟩
  read := by
    rintro f ⟨⟩ u x rc u' ⟨⟩
    rfl
  write := by
    rintro f ⟨⟩ p x rc p' ⟨⟩
    exact ⟨rfl, rfl, rfl⟩
  close u x y := by
    simp only [twoClients, List.mem_filter, decide_eq_true_eq]
    tauto

/-- Three rounds of a server that listens on 3. -/
theorem sockpollLoop_serves_three :
    ∃ p₀ rc p clients gone, sockpollAlloc 3 [3] = some p₀ ∧
      sockpollLoop twoClients 0 3 p₀ = some (rc, p) ∧
      Run (ServeStep 3) ([], none) p.events (clients, gone) ∧ clients.Nodup ∧
      (∀ x, p.backend.fds x = true ↔ x = 3 ∨ x ∈ clients) ∧
      (∀ x, p.backend.fds x = true → x ≤ p.backend.fdmax) ∧
      (∀ x ∈ clients, ¬ (x ∈ [(3 : ℤ)] ∧ 0 ≤ x)) ∧
      ∀ x, (x ∈ p.user ∧ 0 ≤ x) ↔ (x ∈ [(3 : ℤ)] ∧ 0 ≤ x) ∨ x ∈ clients :=
  sockpollLoop_serves twoClients_contract 0 ⟨List.mem_singleton_self 3, by decide⟩ (by decide) 3

def threeFds : FdSet := Function.update (Function.update (Function.update (fun _ => false) 3 true)
  4 true) 5 true

theorem dueCalls_three : dueCalls threeFds threeFds fdSetSize.toNat =
    [(3, false), (3, true), (4, false), (4, true), (5, false), (5, true)] := by
  rw [Sockpoll.dueCalls_eq (m := 6) (by decide) fun i hi => ?_]
  · rfl
  have hout : threeFds i = false := by
    unfold threeFds
    rw [Function.update_of_ne (by omega), Function.update_of_ne (by omega),
      Function.update_of_ne (by omega)]
  exact ⟨hout, hout⟩

/-- The third round of this server, which has two clients by then: one is read and written to, the
other is dropped, and written to after that. -/
theorem sockpollLoop_answers_third : ∃ p₀ p p' new, sockpollAlloc 3 [3] = some p₀ ∧
    sockpollLoop twoClients 0 2 p₀ = some (none, p) ∧
    sockpollLoop twoClients 0 3 p₀ = some (none, p') ∧ p'.events = p.events ++ new ∧
    new.map (SockEvent.call 3) =
      [(3, false), (3, true), (4, false), (4, true), (5, false), (5, true)] := by
  have hopen : (fun (opened : List ℤ) (x : ℤ) => x ∈ opened ∧ 0 ≤ x) [3] 3 :=
    ⟨List.mem_singleton_self 3, by decide⟩
  obtain ⟨p₀, halloc⟩ : ∃ p₀, sockpollAlloc 3 [(3 : ℤ)] = some p₀ := ⟨_, rfl⟩
  obtain rfl := Option.some.inj halloc
  obtain ⟨p, hrun, hfds, huser⟩ : ∃ p, sockpollLoop twoClients 0 2
      ⟨⟨3, ⟨Function.update (fun _ => false) 3 true, 3⟩, [3]⟩, []⟩ = some (none, p) ∧
      p.backend = ⟨threeFds, 5⟩ ∧ p.user = [5, 4, 3] := ⟨_, rfl, rfl, rfl⟩
  have hask : Sockpoll.ask twoClients p = (1, threeFds, threeFds, [5, 4, 3]) := by
    unfold Sockpoll.ask
    rw [hfds, huser]
    rfl
  obtain ⟨p', new, hnext, hevents, -, hall⟩ := sockpollLoop_answers twoClients_contract 0 hopen
    (by decide) 2 rfl hrun rfl hask Int.one_pos
  have hcalls := hall rfl
  rw [show Sockpoll.writeSet twoClients threeFds = threeFds from rfl, dueCalls_three] at hcalls
  exact ⟨_, p, p', new, rfl, hrun, hnext, hevents, hcalls⟩

end Runs

end Carthage
