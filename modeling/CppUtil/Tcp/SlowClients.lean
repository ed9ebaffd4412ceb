import CppUtil.Tcp.Delivery

/-!
# Clients that do not keep up

The sockets of the clients are not blocking, so a `write` to a client whose
send buffer is full returns -1, and a `write` to one whose buffer has too little
room takes some of the bytes. `client_msg_handler` compares the result with -1
only: it exits on it, and does not write the rest of a chunk again. Every other
call that fails ends the process as well.

`delivered_iff_whole_writes`: the server is up and no connection has missed a
byte exactly if no call has failed and every `write` has taken the whole chunk.
One client that does not read is enough for the others to lose the server.
-/

namespace CppUtil.Tcp

open Lang (Str)
open Lib

/-- The loop of `client_msg_handler`, where `write` to `fd` takes `takes fd`
bytes at most, or fails. Nothing is left when the process has exited. -/
def forwardSome (sockFd : Fd) (buffer : Str) (takes : Fd → Option Nat) :
    List Fd → Poll Fd Client → Option (Poll Fd Client)
  | [], p => some p
  | fd :: table, p =>
    if fd ≠ sockFd then
      (takes fd).bind fun n => forwardSome sockFd buffer takes table (write fd (buffer.take n) p)
    else forwardSome sockFd buffer takes table p

def State.clientMsgHandlerSome (sockFd : Fd) (takes : Fd → Option Nat) (w : Watched Client)
    (s : State) : Option State × List Event :=
  let buffer := w.socket.incoming.take readBufferSize
  if buffer = [] then
    let (s, es) := s.clientMsgHandler sockFd w
    (some s, es)
  else
    let poll := s.poll.handled sockFd (some { w with socket := w.socket.read })
    match forwardSome sockFd buffer takes s.table poll with
    | some poll => (some { s with poll }, [.forwarded sockFd buffer])
    | none => (none, [])

inductive KernelAct
  /-- With the answers to the calls of `write`, if there are any. -/
  | go (act : Act) (takes : Fd → Option Nat)
  /-- Another call fails: `accept`, `fcntl`, `epoll_ctl`, `epoll_wait` or `read`. -/
  | fail

def stepSome : Option State → KernelAct → Option (Option State × List Event)
  | none, _ => none
  | some _, .fail => some (none, [])
  | some s, .go .handle takes =>
    match s.poll.batch with
    | [] => none
    | fd :: _ => (s.poll.watched fd).map fun w => s.clientMsgHandlerSome fd takes w
  | some s, .go act _ => (step s act).map fun (s, es) => (some s, es)

def kernelMachine : Machine (Option State) KernelAct Event := ⟨stepSome⟩

-- ---------------------------------------------------------------------------
-- The loop over the clients
-- ---------------------------------------------------------------------------

def receivesSome (sockFd : Fd) (buffer : Str) (takes : Fd → Option Nat) (fds : List Fd) (fd : Fd)
    (c : Client) : Client :=
  receives sockFd (buffer.take ((takes fd).getD 0)) fds fd c

theorem forwardSome_eq (hnodup : fds.Nodup) (h : forwardSome sockFd buffer takes fds p = some p') :
    p' = p.mapSockets (receivesSome sockFd buffer takes fds) := by
  induction fds generalizing p with
  | nil =>
    cases h
    simp [Poll.mapSockets, receivesSome, receives]
  | cons fd fds ih =>
    obtain ⟨hfd, hnodup⟩ := List.nodup_cons.mp hnodup
    have hcons : ∀ fd' c, receivesSome sockFd buffer takes fds fd'
        (receives sockFd (buffer.take ((takes fd).getD 0)) [fd] fd' c) =
          receivesSome sockFd buffer takes (fd :: fds) fd' c := by
      intro fd' c
      by_cases heq : fd' = fd
      · subst heq
        exact receives_cons hfd
      · simp [receivesSome, receives, heq]
    have hrest : forwardSome sockFd buffer takes fds
        (p.mapSockets (receives sockFd (buffer.take ((takes fd).getD 0)) [fd])) = some p' := by
      rw [← write_eq]
      by_cases hsock : fd = sockFd
      · simpa [forwardSome, hsock] using h
      · rw [forwardSome, if_pos hsock] at h
        obtain ⟨n, hn, h⟩ := Option.bind_eq_some_iff.mp h
        simpa [hn, hsock] using h
    rw [ih hnodup hrest, Poll.mapSockets_mapSockets]
    simp only [hcons]

theorem forwardSome_whole (h : ∀ fd ∈ fds, fd ≠ sockFd → ∃ n, takes fd = some n ∧ buffer.length ≤ n) :
    forwardSome sockFd buffer takes fds p = some (forward sockFd buffer fds p) := by
  induction fds generalizing p with
  | nil => rfl
  | cons fd fds ih =>
    rw [List.forall_mem_cons] at h
    by_cases hsock : fd = sockFd
    · simpa [forwardSome, forward, hsock] using ih h.2
    · obtain ⟨n, hn, hlen⟩ := h.1 hsock
      simpa [forwardSome, forward, hsock, hn, List.take_of_length_le hlen] using ih h.2

theorem forwardSome_answers (h : forwardSome sockFd buffer takes fds p = some p') (hfd : fd ∈ fds)
    (hne : fd ≠ sockFd) : (takes fd).isSome := by
  induction fds generalizing p with
  | nil => cases hfd
  | cons fd' fds ih =>
    by_cases hsock : fd' = sockFd
    · have hmem := (List.mem_cons.mp hfd).resolve_left fun he => hne (he.trans hsock)
      exact ih (by simpa [forwardSome, hsock] using h) hmem
    · rw [forwardSome, if_pos hsock] at h
      obtain ⟨n, hn, h⟩ := Option.bind_eq_some_iff.mp h
      rcases List.mem_cons.mp hfd with rfl | hmem
      · simp [hn]
      · exact ih h hmem

theorem writtenTo_forwardSome (hnodup : fds.Nodup) (hfds : fd ∈ fds ↔ (p.watched fd).isSome)
    (h : forwardSome sockFd buffer takes fds p = some p') :
    writtenTo p' fd = if sockFd = fd then writtenTo p fd
      else (writtenTo p fd).map (· ++ buffer.take ((takes fd).getD 0)) := by
  have hsame : writtenTo p' fd =
      writtenTo (p.mapSockets (receives sockFd (buffer.take ((takes fd).getD 0)) fds)) fd := by
    rw [forwardSome_eq hnodup h]
    rfl
  rw [hsame, ← forward_eq hnodup, writtenTo_forward hnodup hfds]

theorem Ok.forwardSome (h : Ok s) (hf : forwardSome fd buffer takes s.table s.poll = some poll) :
    Ok { s with poll } := by
  rw [forwardSome_eq h.nodup hf]
  exact {
    valid := h.valid.mapSockets
    nodup := h.nodup
    table := fun fd' => by rw [h.table, Poll.isSome_mapSockets]
    accounted := h.accounted.mapSockets fun _ _ hc => hc.receives }

-- ---------------------------------------------------------------------------
-- What a step does
-- ---------------------------------------------------------------------------

/-- A step in which nothing is forwarded is one of the server whose writes are
whole. -/
inductive MovesSome (s : State) : KernelAct → Option State → List Event → Prop
  | fail : MovesSome s .fail none []
  | plain (hs : step s act = some (s', es)) (hes : ∀ fd bytes, .forwarded fd bytes ∉ es) :
      MovesSome s (.go act takes) (some s') es
  | exit (hb : s.poll.batch = fd :: rest) (hw : s.poll.watched fd = some w)
      (hin : w.socket.incoming ≠ [])
      (hf : forwardSome fd (w.socket.incoming.take readBufferSize) takes s.table
        (s.poll.handled fd (some { w with socket := w.socket.read })) = none) :
      MovesSome s (.go .handle takes) none []
  | forward (hb : s.poll.batch = fd :: rest) (hw : s.poll.watched fd = some w)
      (hin : w.socket.incoming ≠ [])
      (hf : forwardSome fd (w.socket.incoming.take readBufferSize) takes s.table
        (s.poll.handled fd (some { w with socket := w.socket.read })) = some poll) :
      MovesSome s (.go .handle takes) (some { s with poll })
        [.forwarded fd (w.socket.incoming.take readBufferSize)]

theorem stepSome_plain (hact : act ≠ .handle)
    (h : stepSome (some s) (.go act takes) = some (r, es)) : MovesSome s (.go act takes) r es := by
  have hstep : (step s act).map (fun (s, es) => (some s, es)) = some (r, es) := by
    cases act with
    | handle => exact absurd rfl hact
    | arrive | hangUp | accept | wait => exact h
  obtain ⟨⟨s', es'⟩, hs, heq⟩ := Option.map_eq_some_iff.mp hstep
  cases heq
  refine .plain hs fun fd bytes hmem => ?_
  cases step_moves hs with
  | arrive | hangUp | wait => cases hmem
  | accept => simp [State.acceptEventHandler] at hmem
  | closed | again | forward => exact hact rfl

theorem clientMsgHandlerSome_moves (hb : s.poll.batch = fd :: rest)
    (hw : s.poll.watched fd = some w) :
    MovesSome s (.go .handle takes) (s.clientMsgHandlerSome fd takes w).1
      (s.clientMsgHandlerSome fd takes w).2 := by
  have htake : w.socket.incoming.take readBufferSize = [] ↔ w.socket.incoming = [] := by
    simp [List.take_eq_nil_iff, readBufferSize]
  by_cases hin : w.socket.incoming = []
  · simp only [State.clientMsgHandlerSome, if_pos (htake.mpr hin)]
    have hs : step s .handle = some (s.clientMsgHandler fd w) := by simp [step, hb, hw]
    refine .plain hs fun fd' bytes hmem => ?_
    simp only [State.clientMsgHandler, if_pos (htake.mpr hin)] at hmem
    split at hmem <;> simp at hmem
  · simp only [State.clientMsgHandlerSome, if_neg (mt htake.mp hin)]
    cases hf : forwardSome fd (w.socket.incoming.take readBufferSize) takes s.table
        (s.poll.handled fd (some { w with socket := w.socket.read })) with
    | none => exact .exit hb hw hin hf
    | some poll => exact .forward hb hw hin hf

theorem stepSome_moves (h : stepSome (some s) act = some (r, es)) : MovesSome s act r es := by
  cases act with
  | fail =>
    cases h
    exact .fail
  | go act takes =>
    by_cases hact : act = .handle
    · subst hact
      cases hb : s.poll.batch with
      | nil => simp [stepSome, hb] at h
      | cons fd rest =>
        simp only [stepSome, hb, Option.map_eq_some_iff] at h
        obtain ⟨w, hw, h⟩ := h
        have hmoves := @clientMsgHandlerSome_moves _ _ _ _ takes hb hw
        rwa [h] at hmoves
    · exact stepSome_plain hact h

theorem Ok.written_forwardSome (h : Ok s) (hb : s.poll.batch = fd' :: rest)
    (hw : s.poll.watched fd' = some w)
    (hf : Tcp.forwardSome fd' buffer takes s.table
      (s.poll.handled fd' (some { w with socket := w.socket.read })) = some poll) (fd : Fd) :
    writtenTo poll fd = if fd' = fd then writtenTo s.poll fd
      else (writtenTo s.poll fd).map (· ++ buffer.take ((takes fd).getD 0)) := by
  have hok : Ok { s with poll := s.poll.handled fd' (some { w with socket := w.socket.read }) } :=
    h.handled hb hw (h.accounted _ _ hw).read
  have hsame : writtenTo (s.poll.handled fd' (some { w with socket := w.socket.read })) fd =
      writtenTo s.poll fd := writtenTo_update hw rfl
  rw [writtenTo_forwardSome hok.nodup (hok.table fd) hf, hsame]

theorem Ok.movesSome (h : Ok s) (hm : MovesSome s act (some s') es) : Ok s' := by
  cases hm with
  | plain hs _ => exact h.step hs
  | forward hb hw hin hf => exact (h.handled hb hw (h.accounted _ _ hw).read).forwardSome hf

-- ---------------------------------------------------------------------------
-- Chunks that are cut
-- ---------------------------------------------------------------------------

def WholeWrites : Option State → KernelAct → Prop
  | _, .fail => False
  | some s, .go .handle takes =>
    ∀ fd ∈ s.poll.batch.head?, ∀ w ∈ s.poll.watched fd, w.socket.incoming ≠ [] →
      ∀ fd' ∈ s.table, fd' ≠ fd →
        (takes fd').any fun n => (w.socket.incoming.take readBufferSize).length ≤ n
  | _, _ => True

/-- The server is up, and what was written to the connections is what they are
owed: to those that are open now and, when they ended, to the others. -/
def UpToDate (es : List Event) (r : Option State) : Prop :=
  ∃ s, r = some s ∧ (∀ fd, writtenTo s.poll fd = owed fd es) ∧ Paired es

/-- A connection has ended without some of its bytes, or goes on without them. -/
def Behind (es : List Event) (s : State) : Prop :=
  ¬ Paired es ∨ ∃ fd got due, writtenTo s.poll fd = some got ∧ owed fd es = some due ∧
    got.length < due.length

def Spoiled (es : List Event) (r : Option State) : Prop := ∀ s, r = some s → Ok s ∧ Behind es s

theorem Paired.of_append (h : Paired (es ++ es')) : Paired es := by
  rintro before e after rfl
  exact h before e (after ++ es') (by simp)

theorem Spoiled.not_upToDate (h : Spoiled es r) : ¬ UpToDate es r := by
  rintro ⟨s, rfl, hgot, hpaired⟩
  rcases (h s rfl).2 with hnot | ⟨fd, got, due, hfd, hdue, hlt⟩
  · exact hnot hpaired
  · rw [hgot, hdue] at hfd
    cases hfd
    exact Nat.lt_irrefl _ hlt

theorem WholeWrites.forwardSome (h : WholeWrites (some s) (.go .handle takes))
    (hb : s.poll.batch = fd :: rest) (hw : s.poll.watched fd = some w)
    (hin : w.socket.incoming ≠ []) (p : Poll Fd Client) :
    forwardSome fd (w.socket.incoming.take readBufferSize) takes s.table p =
      some (forward fd (w.socket.incoming.take readBufferSize) s.table p) := by
  refine forwardSome_whole fun fd' hfd' hne => ?_
  have htakes := h fd (by simp [hb]) w hw hin fd' hfd' hne
  simpa [Option.any_eq_true] using htakes

theorem Delivered.stepWhole (h : Delivered es s) (hwhole : WholeWrites (some s) act)
    (hs : stepSome (some s) act = some (r, es')) : ∃ s', r = some s' ∧ Delivered (es ++ es') s' := by
  cases stepSome_moves hs with
  | fail => exact hwhole.elim
  | plain hs _ => exact ⟨_, rfl, h.step hs⟩
  | exit hb hw hin hf =>
    rw [hwhole.forwardSome hb hw hin] at hf
    cases hf
  | @forward fd rest w _ _ hb hw hin hf =>
    rw [hwhole.forwardSome hb hw hin] at hf
    cases hf
    have hne : w.socket.incoming.take readBufferSize ≠ [] := by
      simp [List.take_eq_nil_iff, readBufferSize, hin]
    have hstep : machine.step s .handle = some (s.clientMsgHandler fd w) := by
      simp [machine, Tcp.step, hb, hw]
    simp only [State.clientMsgHandler, if_neg hne] at hstep
    exact ⟨_, rfl, h.step hstep⟩

theorem Behind.step (h : Behind es s) (hok : Ok s)
    (hs : stepSome (some s) act = some (some s', es')) : Behind (es ++ es') s' := by
  rcases h with hnot | ⟨fd, got, due, hgot, hdue, hlt⟩
  · exact .inl (mt Paired.of_append hnot)
  have hlen : got ≠ due := by
    rintro rfl
    exact Nat.lt_irrefl _ hlt
  cases stepSome_moves hs with
  | plain hs hes =>
    have hwritten := (step_moves hs).written hok fd
    rw [hgot] at hwritten
    cases step_moves hs with
    | arrive | hangUp | wait | again =>
      exact .inr ⟨fd, got, due, hwritten, by rwa [List.append_nil], hlt⟩
    | @accept fd' bytes eof hw =>
      have hne : fd' ≠ fd := by
        rintro rfl
        simp [writtenTo, hw] at hgot
      refine .inr ⟨fd, got, due, ?_, ?_, hlt⟩
      · simpa [State.acceptEventHandler, Event.owe, hne] using hwritten
      · simp [owed_append, State.acceptEventHandler, Event.owe, hne, hdue]
    | @closed fd' rest w hb hw hin =>
      by_cases hne : fd' = fd
      · subst hne
        simp only [writtenTo, hw, Option.map_some] at hgot
        cases hgot
        refine .inl fun hpaired => hlen ?_
        have hfits : owed fd' es = some w.socket.written := hpaired es _ [] rfl
        rw [hdue] at hfits
        exact (Option.some.inj hfits).symm
      · refine .inr ⟨fd, got, due, ?_, ?_, hlt⟩
        · simpa [Event.owe, hne] using hwritten
        · simp [owed_append, Event.owe, hne, hdue]
    | forward => exact absurd List.mem_cons_self (hes _ _)
  | @forward fd' rest w takes poll hb hw hin hf =>
    have hwritten := hok.written_forwardSome hb hw hf fd
    by_cases hne : fd' = fd
    · rw [if_pos hne, hgot] at hwritten
      refine .inr ⟨fd, got, due, hwritten, ?_, hlt⟩
      simp [owed_append, Event.owe, hne, hdue]
    · rw [if_neg hne, hgot] at hwritten
      refine .inr ⟨fd, _, due ++ w.socket.incoming.take readBufferSize, hwritten, ?_, ?_⟩
      · simp [owed_append, Event.owe, hne, hdue]
      · simp only [List.length_append, List.length_take]
        omega

theorem Spoiled.step (h : Spoiled es r) (hs : stepSome r act = some (r', es')) :
    Spoiled (es ++ es') r' := by
  rintro s' rfl
  cases r with
  | none => cases hs
  | some s =>
    obtain ⟨hok, hbehind⟩ := h s rfl
    exact ⟨hok.movesSome (stepSome_moves hs), hbehind.step hok hs⟩

theorem wholeWrites_of_plain (hs : step s act = some (s', es))
    (hes : ∀ fd bytes, .forwarded fd bytes ∉ es) : WholeWrites (some s) (.go act takes) := by
  cases act with
  | arrive | hangUp | accept | wait => trivial
  | handle =>
    intro fd hfd w hw hin
    cases step_moves hs with
    | closed hb hw' hin' | again hb hw' hin' =>
      simp only [hb, List.head?_cons, Option.mem_some_iff] at hfd
      cases hfd
      cases hw'.symm.trans hw
      exact absurd hin' hin
    | forward => exact absurd List.mem_cons_self (hes _ _)

/-- A `write` that does not take the whole chunk leaves its client behind. -/
theorem Delivered.spoiled (h : Delivered es s) (hcut : ¬ WholeWrites (some s) act)
    (hs : stepSome (some s) act = some (r, es')) : Spoiled (es ++ es') r := by
  rintro s' rfl
  refine ⟨h.ok.movesSome (stepSome_moves hs), ?_⟩
  cases stepSome_moves hs with
  | @plain act _ _ takes hs hes =>
    exact absurd (wholeWrites_of_plain hs hes) hcut
  | @forward fd rest w takes poll hb hw hin hf =>
    simp only [WholeWrites, hb, hw, List.head?_cons, Option.mem_some_iff, forall_eq', not_forall] at hcut
    obtain ⟨-, fd', hfd', hne, htakes⟩ := hcut
    obtain ⟨n, hn⟩ := Option.isSome_iff_exists.mp (forwardSome_answers hf hfd' hne)
    obtain ⟨c, hc⟩ := Option.isSome_iff_exists.mp ((h.ok.table fd').mp hfd')
    have hgot : writtenTo s.poll fd' = some c.socket.written := by simp [writtenTo, hc]
    have hwritten := h.ok.written_forwardSome hb hw hf fd'
    rw [if_neg (Ne.symm hne), hgot] at hwritten
    refine .inr ⟨fd', _, c.socket.written ++ w.socket.incoming.take readBufferSize, hwritten, ?_, ?_⟩
    · rw [owed_append, ← h.written, hgot, List.foldl_cons, Event.owe, if_neg (Ne.symm hne)]
      rfl
    · simp [hn] at htakes ⊢
      omega

/-- The server is up and no connection has missed a byte, as long as no call
fails and every `write` takes the whole chunk. Nothing else makes up for it. -/
theorem delivered_iff_whole_writes (hrun : kernelMachine.run (some .init) as = some (r, es)) :
    UpToDate es r ↔ kernelMachine.Meets WholeWrites (some .init) as := by
  have hinit : ∃ s, some State.init = some s ∧ Delivered [] s := ⟨_, rfl, .init, fun _ => rfl, .nil⟩
  refine Machine.last_iff_meets WholeWrites (fun es r => ∃ s, r = some s ∧ Delivered es s)
    Spoiled UpToDate ?_ ?_ ?_ ?_ ?_ hinit hrun
  · rintro es r ⟨s, rfl, h⟩
    exact ⟨s, rfl, h.written, h.paired⟩
  · rintro es r act es' r' ⟨s, rfl, h⟩ hwhole hs
    exact h.stepWhole hwhole hs
  · rintro es r act es' r' ⟨s, rfl, h⟩ hcut hs
    exact h.spoiled hcut hs
  · exact fun _ _ _ _ _ h hs => h.step hs
  · exact fun _ _ h => h.not_upToDate

theorem delivered_iff_whole_writes_cut :
    let takes := fun _ => some 1
    let as : List KernelAct := [.go (.accept 4 [] false) takes,
      .go (.accept 5 "hi".toList false) takes, .go (.wait [5]) takes, .go .handle takes]
    ∃ s, kernelMachine.run (some .init) as =
        some (some s, [.accepted 4, .accepted 5, .forwarded 5 "hi".toList]) ∧
      writtenTo s.poll 4 = some "h".toList ∧
      ¬ UpToDate [.accepted 4, .accepted 5, .forwarded 5 "hi".toList] (some s) := by
  intro takes as
  refine ⟨_, rfl, rfl, fun hup => ?_⟩
  have hmeets : kernelMachine.Meets WholeWrites (some .init) as :=
    (delivered_iff_whole_writes rfl).mp hup
  have hlast := (((hmeets.2 _ _ rfl).2 _ _ rfl).2 _ _ rfl).1
  exact absurd (hlast 5 rfl _ rfl (by decide) 4 (by decide) (by decide)) (by decide)

end CppUtil.Tcp
