import CLIos.Net.Socket

/-!
# Descriptors and the handles that hold them

A live handle with a descriptor holds it.  Every call either leaves the custody
of the descriptors alone, closes what a handle holds, or puts a descriptor just
opened, or nothing, into a handle: `F_CONNECT` and `F_LISTEN` do the last to a
handle that may hold one, and so does the garbage collector.
-/

namespace CLIos

open Resources Runs

def Sock.held (h : Sock) : Option Int := if h.live = true ∧ 0 ≤ h.fd then some h.fd else none

namespace Sockets

def custody (s : Sockets) : Custody Nat Int where
  opened := {fd | fd ∈ s.opened}
  holds k := s.handles[k]?.bind Sock.held

/-- Every descriptor opened and not closed is the `fd` of a live handle. -/
def NoneLost (s : Sockets) : Prop :=
  ∀ fd ∈ s.opened, ∃ h ∈ s.handles, h.live = true ∧ h.fd = fd

/-- No handle with a descriptor gets another one, or is collected. -/
def Spares (s : Sockets) : SockEvent → Prop
  | .connect k t => t.badArgument = none → t.resolved = true →
      ∀ h, s.handles[k]? = some h → h.isUdp = false → h.fd < 0
  | .listen k t => t.badArgument = none →
      ∀ h, s.handles[k]? = some h → h.isUdp = false → h.fd < 0
  | .collect k => ∀ h, s.handles[k]? = some h → h.fd < 0
  | _ => True

/-- The descriptors that were ever opened are no negative numbers. -/
def Natural (s : Sockets) : Prop := ∀ fd ∈ s.opened, 0 ≤ fd

theorem held_eq_some_iff (h : Sock) (fd : Int) :
    h.held = some fd ↔ h.live = true ∧ 0 ≤ fd ∧ h.fd = fd := by
  unfold Sock.held
  split
  · next hl =>
    constructor
    · intro hfd
      obtain rfl := Option.some.inj hfd
      exact ⟨hl.1, hl.2, rfl⟩
    · rintro ⟨-, -, rfl⟩
      rfl
  · next hl =>
    constructor
    · intro hfd
      cases hfd
    · rintro ⟨hlive, hpos, rfl⟩
      exact absurd ⟨hlive, hpos⟩ hl

theorem held_eq_none_iff {h : Sock} (hl : h.live = true) : h.held = none ↔ h.fd < 0 := by
  unfold Sock.held
  split
  · next hpos =>
    constructor
    · intro hnone
      cases hnone
    · intro hneg
      omega
  · next hneg =>
    refine iff_of_true rfl ?_
    by_contra hpos
    exact hneg ⟨hl, by omega⟩

theorem noneLost_iff {s : Sockets} (hnat : s.Natural) : s.NoneLost ↔ s.custody.Complete := by
  constructor
  · intro h fd hfd
    obtain ⟨k, hk⟩ := h fd hfd
    obtain ⟨i, hi⟩ := List.mem_iff_getElem?.mp hk.1
    refine ⟨i, ?_⟩
    show s.handles[i]?.bind Sock.held = some fd
    rw [hi]
    exact (held_eq_some_iff k fd).mpr ⟨hk.2.1, hnat fd hfd, hk.2.2⟩
  · intro h fd hfd
    obtain ⟨i, hi⟩ := h fd hfd
    obtain ⟨k, hk, hheld⟩ := Option.bind_eq_some_iff.mp hi
    obtain ⟨hlive, -, hkfd⟩ := (held_eq_some_iff k fd).mp hheld
    exact ⟨k, List.mem_of_getElem? hk, hlive, hkfd⟩

/-! ## What a call does to the custody -/

theorem custody_set {s : Sockets} {k : Nat} {h h' : Sock} (hk : s.handles[k]? = some h)
    (opened : List Int) (closed : List (Nat × Int)) :
    custody ⟨s.handles.set k h', opened, closed⟩ =
      ⟨{fd | fd ∈ opened}, Function.update s.custody.holds k h'.held⟩ := by
  have hlt := (List.getElem?_eq_some_iff.mp hk).1
  unfold custody
  congr 1
  ext j fd
  rw [Function.update_apply]
  by_cases hj : j = k
  · subst hj
    rw [if_pos rfl, List.getElem?_set_self hlt, Option.bind_some]
  · rw [if_neg hj, List.getElem?_set_ne (Ne.symm hj)]

theorem custody_push (s : Sockets) (h : Sock) (opened : List Int) (closed : List (Nat × Int)) :
    custody ⟨s.handles ++ [h], opened, closed⟩ =
      ⟨{fd | fd ∈ opened}, Function.update s.custody.holds s.handles.length h.held⟩ := by
  unfold custody
  congr 1
  ext j fd
  rw [Function.update_apply]
  by_cases hj : j = s.handles.length
  · subst hj
    rw [if_pos rfl, List.getElem?_concat_length, Option.bind_some]
  · rw [if_neg hj]
    by_cases hlt : j < s.handles.length
    · rw [List.getElem?_append_left hlt]
    · have hlen : (s.handles ++ [h]).length ≤ j := by
        rw [List.length_append, List.length_singleton]
        omega
      show (s.handles ++ [h])[j]?.bind Sock.held = some fd ↔ s.handles[j]?.bind Sock.held = some fd
      rw [List.getElem?_eq_none hlen, List.getElem?_eq_none (by omega)]

/-- A step from `s` to `s'`; `spares` tells whether the handle concerned was empty. -/
inductive Moved (s s' : Sockets) (spares : Prop) : Prop where
  | same (hc : s'.custody = s.custody) (hclosed : s'.closed = s.closed) (hq : spares)
  | put (i : Nat) (x : Option Int) (hc : s'.custody = s.custody.put i x)
      (hclosed : s'.closed = s.closed)
      (hfresh : ∀ fd, x = some fd → fd ∉ s.custody.opened ∧ 0 ≤ fd)
      (hq : spares ↔ s.custody.holds i = none)
  | release (i : Nat) (fd : Int) (hc : s'.custody = s.custody.release i)
      (hclosed : s'.closed = s.closed ++ [(i, fd)]) (hheld : s.custody.holds i = some fd)
      (hq : spares)

/-- `x` is what the descriptor `fd` is worth to a handle. -/
theorem sysOpen_spec {s s' : Sockets} {r : Option Nat} {fd : Int} (h : s.sysOpen r = some (s', fd)) :
    s'.handles = s.handles ∧ s'.closed = s.closed ∧ ∃ x : Option Int, {fd | fd ∈ s'.opened} =
        {fd | fd ∈ s.opened} ∪ {fd | x = some fd} ∧
      (∀ fd, x = some fd → fd ∉ s.opened ∧ 0 ≤ fd) ∧
      ∀ isUdp, (Sock.mk fd isUdp true).held = x := by
  cases r with
  | none =>
    cases h
    refine ⟨rfl, rfl, none, ?_, by simp, fun _ => rfl⟩
    simp
  | some n =>
    simp only [sysOpen, Option.ite_none_left_eq_some] at h
    obtain ⟨hfresh, h⟩ := h
    cases h
    refine ⟨rfl, rfl, some n, ?_, ?_, fun _ => ?_⟩
    · ext fd
      simp [or_comm, eq_comm]
    · rintro fd hfd
      obtain rfl := Option.some.inj hfd
      exact ⟨hfresh, Int.natCast_nonneg n⟩
    · exact (held_eq_some_iff _ _).mpr ⟨rfl, Int.natCast_nonneg n, rfl⟩

theorem checkSock_eq_some {s : Sockets} {k : Nat} {isUdp : Bool}
    {body : Sock → Option (Sockets × SockAnswer)} {r : Sockets × SockAnswer}
    (h : s.checkSock k isUdp body = some r) : ∃ h, s.handles[k]? = some h ∧ h.live = true ∧
      ((h.isUdp = isUdp ∧ body h = some r) ∨ (h.isUdp ≠ isUdp ∧ r.1 = s)) := by
  obtain ⟨sock, hk, h⟩ := Option.bind_eq_some_iff.mp h
  simp only [Option.ite_none_left_eq_some] at h
  obtain ⟨hlive, h⟩ := h
  refine ⟨sock, hk, by simpa using hlive, ?_⟩
  split at h
  · next hudp => exact Or.inl ⟨hudp, h⟩
  · next hudp =>
    cases h
    exact Or.inr ⟨hudp, rfl⟩

/-- A descriptor just opened goes into the handle `k`. -/
theorem moved_setFd {s s₁ : Sockets} {k : Nat} {h : Sock} {r : Option Nat} {fd : Int}
    {spares : Prop} (hk : s.handles[k]? = some h) (hl : h.live = true)
    (hopen : s.sysOpen r = some (s₁, fd)) (hq : spares ↔ h.fd < 0) :
    Moved s (s₁.setFd k h fd) spares := by
  obtain ⟨hhandles, hclosed, x, hopened, hfresh, hheld⟩ := sysOpen_spec hopen
  refine .put k x ?_ hclosed hfresh ?_
  · show custody ⟨s₁.handles.set k { h with fd := fd }, s₁.opened, s₁.closed⟩ = _
    rw [hhandles, custody_set hk, hopened, ← hheld h.isUdp, ← hl]
    rfl
  · rw [hq, ← held_eq_none_iff hl]
    show _ ↔ s.handles[k]?.bind Sock.held = none
    rw [hk, Option.bind_some]

theorem moved_newSock {s s₁ : Sockets} {r : Option Nat} {fd : Int} (isUdp : Bool)
    (hopen : s.sysOpen r = some (s₁, fd)) : Moved s (s₁.newSock ⟨fd, isUdp, true⟩).1 True := by
  obtain ⟨hhandles, hclosed, x, hopened, hfresh, hheld⟩ := sysOpen_spec hopen
  refine .put s.handles.length x ?_ hclosed hfresh (iff_of_true trivial ?_)
  · show custody ⟨s₁.handles ++ [⟨fd, isUdp, true⟩], s₁.opened, s₁.closed⟩ = _
    rw [hhandles, custody_push, hopened, hheld isUdp]
    rfl
  · show s.handles[s.handles.length]?.bind Sock.held = none
    rw [List.getElem?_eq_none (Nat.le_refl _), Option.bind_none]

theorem moved_of_eq {s s' : Sockets} {spares : Prop} (h : s' = s) (hq : spares) :
    Moved s s' spares := by
  subst h
  exact .same rfl rfl hq

theorem fConnect_moved {s : Sockets} {k : Nat} {t : ConnectTurn} {r : Sockets × SockAnswer}
    (h : s.fConnect k t = some r) : Moved s r.1 (s.Spares (.connect k t)) := by
  obtain ⟨sock, hk, hl, ⟨hudp, h⟩ | ⟨hudp, h⟩⟩ := checkSock_eq_some h
  · cases hbad : t.badArgument with
    | some msg =>
      simp only [hbad] at h
      cases h
      exact moved_of_eq rfl fun hnone => by simp [hbad] at hnone
    | none =>
      simp only [hbad] at h
      split at h
      · next hres =>
        cases h
        exact moved_of_eq rfl fun _ hyes => by simp [hres] at hyes
      · next hres =>
        obtain ⟨⟨s₁, fd⟩, hopen, h⟩ := Option.bind_eq_some_iff.mp h
        have hr : r.1 = s₁.setFd k sock fd := by
          split at h <;> (try split at h) <;> cases h <;> rfl
        rw [hr]
        refine moved_setFd hk hl hopen ⟨fun hq => ?_, fun hneg _ _ u hu _ => ?_⟩
        · exact hq hbad (by simpa using hres) sock hk hudp
        · obtain rfl : sock = u := Option.some.inj (hk.symm.trans hu)
          exact hneg
  · refine moved_of_eq h fun _ _ u hu hudp' => ?_
    obtain rfl : sock = u := Option.some.inj (hk.symm.trans hu)
    exact absurd hudp' hudp

theorem fListen_moved {s : Sockets} {k : Nat} {t : ListenTurn} {r : Sockets × SockAnswer}
    (h : s.fListen k t = some r) : Moved s r.1 (s.Spares (.listen k t)) := by
  obtain ⟨sock, hk, hl, ⟨hudp, h⟩ | ⟨hudp, h⟩⟩ := checkSock_eq_some h
  · cases hbad : t.badArgument with
    | some msg =>
      simp only [hbad] at h
      cases h
      exact moved_of_eq rfl fun hnone => by simp [hbad] at hnone
    | none =>
      simp only [hbad] at h
      obtain ⟨⟨s₁, fd⟩, hopen, h⟩ := Option.bind_eq_some_iff.mp h
      have hr : r.1 = s₁.setFd k sock fd := by
        split at h <;> cases h <;> rfl
      rw [hr]
      refine moved_setFd hk hl hopen ⟨fun hq => ?_, fun hneg _ u hu _ => ?_⟩
      · exact hq hbad sock hk hudp
      · obtain rfl : sock = u := Option.some.inj (hk.symm.trans hu)
        exact hneg
  · refine moved_of_eq h fun _ u hu hudp' => ?_
    obtain rfl : sock = u := Option.some.inj (hk.symm.trans hu)
    exact absurd hudp' hudp

theorem fAccept_moved {s : Sockets} {k : Nat} {fd : Option Nat} {r : Sockets × SockAnswer}
    (h : s.fAccept k fd = some r) : Moved s r.1 True := by
  obtain ⟨sock, hk, hl, ⟨-, h⟩ | ⟨-, h⟩⟩ := checkSock_eq_some h
  · simp only [Option.ite_none_left_eq_some] at h
    obtain ⟨⟨s₁, c⟩, hopen, h⟩ := Option.bind_eq_some_iff.mp h.2
    split at h
    · next hneg =>
      cases h
      -- nothing was opened
      cases fd with
      | none =>
        cases hopen
        exact moved_of_eq rfl trivial
      | some n =>
        simp only [sysOpen, Option.ite_none_left_eq_some] at hopen
        cases hopen.2
        omega
    · cases h
      exact moved_newSock false hopen
  · exact moved_of_eq h trivial

theorem closeSock_moved {s : Sockets} {k : Nat} {isUdp : Bool} {r : Sockets × SockAnswer}
    (h : s.closeSock k isUdp = some r) : Moved s r.1 True := by
  obtain ⟨sock, hk, hl, ⟨-, h⟩ | ⟨-, h⟩⟩ := checkSock_eq_some h
  · split at h
    · next hpos =>
      cases h
      have hheld : s.custody.holds k = some sock.fd := by
        show s.handles[k]?.bind Sock.held = _
        rw [hk]
        exact (held_eq_some_iff sock sock.fd).mpr ⟨hl, hpos, rfl⟩
      refine .release k sock.fd ?_ rfl hheld trivial
      show custody ⟨s.handles.set k { sock with fd := -1 }, _, _⟩ = _
      rw [custody_set hk, Custody.release, hheld]
      congr 1
      · ext fd
        show fd ∈ s.opened.filter _ ↔ fd ∈ s.opened ∧ some sock.fd ≠ some fd
        rw [List.mem_filter, decide_eq_true_iff, ne_eq, ne_eq, Option.some_inj, eq_comm (a := fd)]
      · congr 1
        exact (held_eq_none_iff (h := { sock with fd := -1 }) hl).mpr (by simp)
    · cases h
      exact moved_of_eq rfl trivial
  · exact moved_of_eq h trivial

theorem collect_moved {s s' : Sockets} {k : Nat} (h : s.collect k = some s') :
    Moved s s' (s.Spares (.collect k)) := by
  obtain ⟨sock, hk, h⟩ := Option.bind_eq_some_iff.mp h
  simp only [Option.ite_none_left_eq_some] at h
  obtain ⟨hl, h⟩ := h
  cases h
  refine .put k none ?_ rfl (by simp) ?_
  · rw [custody_set hk, Custody.put]
    congr 1
    simp [custody]
  · have hheld : s.custody.holds k = none ↔ sock.fd < 0 := by
      show s.handles[k]?.bind Sock.held = none ↔ _
      rw [hk]
      exact held_eq_none_iff (by simpa using hl)
    rw [hheld]
    constructor
    · intro hq
      exact hq sock hk
    · intro hneg u hu
      obtain rfl : sock = u := Option.some.inj (hk.symm.trans hu)
      exact hneg

/-- The calls that open and close nothing. -/
theorem checkSock_same {s : Sockets} {k : Nat} {isUdp : Bool}
    {body : Sock → Option (Sockets × SockAnswer)} {r : Sockets × SockAnswer}
    (hbody : ∀ h r, body h = some r → r.1 = s) (h : s.checkSock k isUdp body = some r) :
    Moved s r.1 True := by
  obtain ⟨sock, -, -, ⟨-, h⟩ | ⟨-, h⟩⟩ := checkSock_eq_some h
  · exact moved_of_eq (hbody sock r h) trivial
  · exact moved_of_eq h trivial

theorem transfer_moved {s : Sockets} {k : Nat} {isUdp : Bool} {badArgument : Option String}
    {w : Int} {r : Sockets × SockAnswer} (h : s.transfer k isUdp badArgument w = some r) :
    Moved s r.1 True := by
  refine checkSock_same (fun _ r h => ?_) h
  cases badArgument <;> cases h <;> rfl

theorem receive_moved {s : Sockets} {k : Nat} {isUdp : Bool} {t : RecvTurn}
    {r : Sockets × SockAnswer} (h : s.receive k isUdp t = some r) : Moved s r.1 True := by
  refine checkSock_same (fun _ r h => ?_) h
  split at h
  · cases h
    rfl
  · split at h <;> cases h <;> rfl

theorem step_moved {s s' : Sockets} {e : SockEvent} (h : s.step e = some s') :
    Moved s s' (s.Spares e) := by
  have hcall : ∀ {x : Option (Sockets × SockAnswer)} {spares : Prop},
      (∀ r, x = some r → Moved s r.1 spares) → x.map Prod.fst = some s' → Moved s s' spares := by
    intro x spares hx h
    obtain ⟨r, hr, rfl⟩ := Option.map_eq_some_iff.mp h
    exact hx r hr
  cases e with
  | tcp =>
    cases h
    exact moved_newSock false (r := none) rfl
  | udp fd =>
    refine hcall (fun r hr => ?_) h
    obtain ⟨⟨s₁, fd'⟩, hopen, rfl⟩ := Option.map_eq_some_iff.mp hr
    exact moved_newSock true hopen
  | connect k t => exact hcall (fun _ => fConnect_moved) h
  | listen k t => exact hcall (fun _ => fListen_moved) h
  | accept k fd => exact hcall (fun _ => fAccept_moved) h
  | send k badArgument w => exact hcall (fun _ => transfer_moved) h
  | sendto k badArgument w => exact hcall (fun _ => transfer_moved) h
  | recv k t => exact hcall (fun _ => receive_moved) h
  | recvfrom k t => exact hcall (fun _ => receive_moved) h
  | close k => exact hcall (fun _ => closeSock_moved) h
  | closeUdp k => exact hcall (fun _ => closeSock_moved) h
  | bind k badArgument bound =>
    refine hcall (fun r hr => checkSock_same (fun _ r hr => ?_) hr) h
    split at hr
    · cases hr
      rfl
    · split at hr <;> cases hr <;> rfl
  | collect k => exact collect_moved h

/-! ## Runs -/

theorem Moved.natural {s s' : Sockets} {spares : Prop} (h : Moved s s' spares) (hn : s.Natural) :
    s'.Natural := by
  intro fd hfd
  have hfd : fd ∈ s'.custody.opened := hfd
  cases h with
  | same hc =>
    rw [hc] at hfd
    exact hn fd hfd
  | put i x hc _ hfresh =>
    rw [hc] at hfd
    rcases hfd with hfd | hfd
    · exact hn fd hfd
    · exact (hfresh fd hfd).2
  | release i fd' hc =>
    rw [hc] at hfd
    exact hn fd hfd.1

theorem Moved.sound {s s' : Sockets} {spares : Prop} (h : Moved s s' spares)
    (hs : s.custody.Sound) : s'.custody.Sound := by
  cases h with
  | same hc => rwa [hc]
  | put i x hc _ hfresh =>
    rw [hc]
    exact hs.put fun fd hfd => (hfresh fd hfd).1
  | release i fd hc =>
    rw [hc]
    exact hs.release

theorem Moved.complete_iff {s s' : Sockets} {spares : Prop} (h : Moved s s' spares)
    (hs : s.custody.Sound) (hc : s.custody.Complete) : s'.custody.Complete ↔ spares := by
  cases h with
  | same heq _ hq =>
    rw [heq]
    exact iff_of_true hc hq
  | put i x heq _ hfresh hq =>
    rw [heq, hq]
    exact Custody.complete_put_iff hs hc fun fd hfd => (hfresh fd hfd).1
  | release i fd heq _ _ hq =>
    rw [heq]
    exact iff_of_true hc.release hq

/-! ## Who may close what -/

/-- A live handle has no descriptor or an open one, and shares it with no other. -/
structure OneOwner (s : Sockets) : Prop where
  fd_open : ∀ h ∈ s.handles, h.live = true → h.fd < 0 ∨ h.fd ∈ s.opened
  unshared : ∀ (i j : Nat) (h h' : Sock), s.handles[i]? = some h → s.handles[j]? = some h' →
    h.live = true → h'.live = true → h.fd ∈ s.opened → h.fd = h'.fd → i = j

/-- The calls of `close(2)` that a step makes. -/
def closesBy (s : Sockets) (e : SockEvent) : List (Nat × Int) :=
  match s.step e with
  | some s' => s'.closed.drop s.closed.length
  | none => []

/-- A descriptor is closed while it is open and by the one handle that has it. -/
def ClosesOwn (s : Sockets) (e : SockEvent) : Prop :=
  ∀ k fd, (k, fd) ∈ s.closesBy e → fd ∈ s.opened ∧
    ∀ i, (∃ h, s.handles[i]? = some h ∧ h.live = true ∧ h.fd = fd) ↔ i = k

theorem holds_eq_some_iff (s : Sockets) (i : Nat) (fd : Int) : s.custody.holds i = some fd ↔
    ∃ h, s.handles[i]? = some h ∧ h.live = true ∧ 0 ≤ fd ∧ h.fd = fd := by
  show s.handles[i]?.bind Sock.held = some fd ↔ _
  simp only [Option.bind_eq_some_iff, held_eq_some_iff]

theorem oneOwner_of_sound {s : Sockets} (hn : s.Natural) (hs : s.custody.Sound) : s.OneOwner where
  fd_open := by
    intro h hmem hlive
    rcases Int.lt_or_le h.fd 0 with hneg | hpos
    · exact Or.inl hneg
    · obtain ⟨i, hi⟩ := List.mem_iff_getElem?.mp hmem
      exact Or.inr (hs.held_open i h.fd ((s.holds_eq_some_iff i h.fd).mpr
        ⟨h, hi, hlive, hpos, rfl⟩))
  unshared := by
    intro i j h h' hi hj hlive hlive' hopen hfd
    have hpos := hn h.fd hopen
    exact hs.unshared i j h.fd ((s.holds_eq_some_iff i h.fd).mpr ⟨h, hi, hlive, hpos, rfl⟩)
      ((s.holds_eq_some_iff j h.fd).mpr ⟨h', hj, hlive', hpos, hfd.symm⟩)

/-- What a step closes is what the handle holds. -/
theorem holds_of_closesBy {s : Sockets} {e : SockEvent} {k : Nat} {fd : Int}
    (h : (k, fd) ∈ s.closesBy e) : s.custody.holds k = some fd := by
  unfold closesBy at h
  cases hs : s.step e with
  | none =>
    rw [hs] at h
    cases h
  | some s' =>
    rw [hs] at h
    have h : (k, fd) ∈ s'.closed.drop s.closed.length := h
    have hcloses : s'.closed ≠ s.closed := by
      intro hclosed
      rw [hclosed, List.drop_length] at h
      cases h
    cases step_moved hs with
    | same _ hclosed => exact absurd hclosed hcloses
    | put _ _ _ hclosed => exact absurd hclosed hcloses
    | release i fd' _ hclosed hheld =>
      rw [hclosed, List.drop_left, List.mem_singleton] at h
      cases h
      exact hheld

theorem closesOwn_of_sound {s : Sockets} (hs : s.custody.Sound) (e : SockEvent) :
    s.ClosesOwn e := by
  intro k fd hclose
  have hheld := holds_of_closesBy hclose
  obtain ⟨h, hk, hlive, hpos, hfd⟩ := (s.holds_eq_some_iff k fd).mp hheld
  refine ⟨hs.held_open k fd hheld, fun i => ⟨?_, ?_⟩⟩
  · rintro ⟨h', hi, hlive', hfd'⟩
    exact hs.unshared i k fd ((s.holds_eq_some_iff i fd).mpr ⟨h', hi, hlive', hpos, hfd'⟩) hheld
  · rintro rfl
    exact ⟨h, hk, hlive, hfd⟩

theorem init_sound : sockets.init.Natural ∧ sockets.init.custody.Sound := by
  refine ⟨by simp [sockets, Sockets.Natural], ⟨?_, ?_⟩⟩
  · intro i r hi
    cases hi
  · intro i j r hi
    cases hi

theorem run_sound (es : List SockEvent) :
    sockets.Always (fun s => s.Natural ∧ s.custody.Sound) es := by
  refine Machine.always_of_step (M := sockets) (I := fun s => s.Natural ∧ s.custody.Sound) init_sound ?_ es
  rintro s e s' ⟨hn, hs⟩ hstep
  exact ⟨(step_moved hstep).natural hn, (step_moved hstep).sound hs⟩

end Sockets

/-- **One owner.**  In every run a descriptor has one handle, and is closed by
that handle while it is open. -/
theorem descriptors_owned (es : List SockEvent) :
    sockets.Always Sockets.OneOwner es ∧ sockets.Along Sockets.ClosesOwn es := by
  have hrun := Sockets.run_sound es
  constructor
  · exact Machine.always_mono (fun _ h => Sockets.oneOwner_of_sound h.1 h.2) hrun
  · intro l e s s' hl hs _
    exact Sockets.closesOwn_of_sound (hrun l s ((List.prefix_append l [e]).trans hl) hs).2 e

/-- **Descriptors.**  None is lost in exactly the runs that neither connect or
listen on a handle that has one, nor let such a handle be collected. -/
theorem noneLost_iff_spares (es : List SockEvent) :
    sockets.Always Sockets.NoneLost es ↔ sockets.Along Sockets.Spares es := by
  apply Machine.always_iff_along
    (I := fun s => s.Natural ∧ s.custody.Sound ∧ s.custody.Complete)
  · refine ⟨Sockets.init_sound.1, Sockets.init_sound.2, ?_⟩
    intro r hr
    cases hr
  · exact fun s h => (Sockets.noneLost_iff h.1).mpr h.2.2
  · rintro s e s' ⟨hn, hs, hc⟩ hstep
    have hm := Sockets.step_moved hstep
    have hn' := hm.natural hn
    refine ⟨fun hq => ⟨hn', hm.sound hs, (hm.complete_iff hs hc).mpr hq⟩, fun hp => ?_⟩
    exact (hm.complete_iff hs hc).mp ((Sockets.noneLost_iff hn').mp hp)

/-- A connection that is refused, and a second try on the same handle. -/
theorem second_connect_loses_descriptor : ¬ ∀ es, sockets.Always Sockets.NoneLost es := by
  intro h
  have hrun : sockets.run [.tcp, .connect 0 ⟨none, true, some 54, false⟩,
      .connect 0 ⟨none, true, some 55, true⟩] = some ⟨[⟨55, false, true⟩], [55, 54], []⟩ := rfl
  obtain ⟨k, hk, -, hfd⟩ := h _ _ _ List.prefix_rfl hrun 54 (by decide)
  rw [List.mem_singleton.mp hk] at hfd
  cases hfd

end CLIos
