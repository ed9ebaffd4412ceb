import CppUtil.HttpServer.EpollSocket

/-!
# No request bytes are stranded

A readable event takes at most `epollSocketReadBufferSize` bytes, and nothing
raises the flag for the rest. But every path that keeps a connection open ends
with `EPOLL_CTL_MOD`, which looks at the receive buffer again: whatever the
handler answers, an open connection that is registered for `EPOLLIN` and has
unread bytes has an outstanding event.
-/

namespace CppUtil.HttpServer

open Lang (Str)
open Lib

variable {Env Ctx : Type*} {h : EpollEventHandler Env Ctx} {maxEvents : Nat}

def Socket.Unread (sock : Socket Ctx) : Prop := sock.interest = .epollIn ∧ sock.incoming ≠ []

theorem Socket.epollCtl_ready {sock : Socket Ctx} {interest : Interest}
    (hunread : (sock.epollCtl interest writable).socket.Unread) :
    (sock.epollCtl interest writable).ready = true := by
  obtain ⟨hin, hne⟩ := hunread
  cases interest with
  | epollIn => exact decide_eq_true hne
  | epollOut => cases hin

namespace EpollSocket

theorem handleEvent_armed
    (hopen : handleEvent h env readSize writable sock event = some w) :
    ∃ sock' interest, w = Socket.epollCtl interest writable sock' := by
  cases event with
  | epollIn =>
    obtain ⟨-, hopen⟩ := Option.ite_none_left_eq_some.mp hopen
    split at hopen
    · cases hopen
    · cases hopen
    · exact ⟨_, _, (Option.some.inj hopen).symm⟩
    · exact ⟨_, _, (Option.some.inj hopen).symm⟩
  | epollOut =>
    simp only [handleEvent, Socket.handleWriteableEvent] at hopen
    split at hopen
    · cases hopen
    · cases hopen
    · exact ⟨_, _, (Option.some.inj hopen).symm⟩
    · exact ⟨_, _, (Option.some.inj hopen).symm⟩

structure Ok (s : EpollSocket Ctx) : Prop where
  valid : s.poll.Valid
  /-- A connection stays registered for the event of it that is in the batch. -/
  events : ∀ fd w, s.poll.watched fd = some w → fd ∈ s.poll.batch → s.events fd = w.socket.interest
  attended : s.poll.Attended Socket.Unread

theorem Ok.init : Ok (.init : EpollSocket Ctx) where
  valid := ⟨.nil, by simp [EpollSocket.init, Poll.empty]⟩
  events := by simp [EpollSocket.init, Poll.empty]
  attended := .empty

theorem Ok.occurs (hs : Ok s) (hw : s.poll.watched fd = some w)
    (hbytes : bytes = [] ∨ interest = .epollIn) :
    Ok { s with poll := s.poll.set fd (some (occurs interest w bytes)) } where
  valid := hs.valid.set fun _ => rfl
  events fd' w' hw' hmem := by
    rw [Poll.watched_set] at hw'
    split at hw'
    · subst fd'
      cases hw'
      exact hs.events fd w hw hmem
    · exact hs.events fd' w' hw' hmem
  attended := hs.attended.set <| by
    rintro _ ⟨⟩ ⟨hin, hne⟩
    rcases hbytes with rfl | rfl
    · have hunread : w.socket.Unread := ⟨hin, by simpa [EpollSocket.occurs] using hne⟩
      exact (hs.attended fd w hw hunread).imp_left (by simp +contextual [EpollSocket.occurs])
    · exact .inl (by simpa [EpollSocket.occurs] using .inr hin)

theorem Ok.accept (hs : Ok s) (hw : s.poll.watched fd = none) :
    Ok (handleAcceptEvent h fd bytes s) where
  valid := hs.valid.set fun _ => rfl
  events fd' w' hw' hmem := by
    have hne : fd' ≠ fd := by
      rintro rfl
      simpa [hw] using hs.valid.watched fd' hmem
    rw [handleAcceptEvent, Poll.watched_set, if_neg hne] at hw'
    exact hs.events fd' w' hw' hmem
  attended := hs.attended.set (by rintro _ ⟨⟩ hunread; exact .inl (Socket.epollCtl_ready hunread))

theorem Ok.wait (hs : Ok s) (hfds : s.poll.CanTake fds) : Ok ⟨s.poll.wait fds, s.reported⟩ where
  valid := .wait hfds
  events fd w hw (hmem : fd ∈ fds) := by
    rw [Poll.watched_wait, if_pos hmem] at hw
    obtain ⟨w', hw', rfl⟩ := Option.map_eq_some_iff.mp hw
    simp [reported, hw']
  attended := hs.attended.wait hfds

theorem Ok.handle (hs : Ok s) (hb : s.poll.batch = fd :: rest) :
    Ok { s with
      poll := s.poll.handled fd (handleEvent h env readSize writable sock (s.events fd)) } where
  valid := hs.valid.handled hb
  events fd' w' hw' hmem := by
    have hne : fd' ≠ fd := fun he => hs.valid.notMem_handled hb (he ▸ hmem)
    rw [Poll.watched_handled, if_neg hne] at hw'
    exact hs.events fd' w' hw' (Poll.mem_of_mem_handled hmem)
  attended := hs.attended.handled hb <| by
    intro w' hopen hunread
    obtain ⟨sock', interest, rfl⟩ := handleEvent_armed hopen
    exact Socket.epollCtl_ready hunread

theorem Ok.step (hs : Ok s) (hstep : (machine h maxEvents).step s act = some (s', es)) : Ok s' := by
  cases step_moves hstep with
  | arrive hw => exact hs.occurs hw (.inr rfl)
  | writeable hw => exact hs.occurs hw (.inl rfl)
  | accept hw => exact hs.accept hw
  | wait hfds => exact hs.wait hfds
  | handle hb => exact hs.handle hb

theorem Ok.run (hrun : (machine h maxEvents).run .init as = some (s, es)) : Ok s :=
  Machine.run_invariant _ Ok (fun _ _ _ _ hs _ hstep => hs.step hstep) .init .trivial hrun

theorem Ok.handle_enabled (hs : Ok s) (hb : s.poll.batch ≠ []) :
    ((machine h maxEvents).step s (.handle env 0 writable)).isSome := by
  obtain ⟨fd, rest, hb⟩ := List.exists_cons_of_ne_nil hb
  obtain ⟨w, hw⟩ := Option.isSome_iff_exists.mp (hs.valid.watched fd (by simp [hb]))
  simp [machine, EpollSocket.step, hb, hw]

/-- An event is outstanding: the flag is up, or the event waits in the batch
and will be handled as readable. -/
theorem unread_outstanding (hrun : (machine h maxEvents).run .init as = some (s, es))
    (hopen : s.poll.watched fd = some w) (hin : w.socket.interest = .epollIn)
    (hunread : w.socket.incoming ≠ []) :
    w.ready = true ∨ fd ∈ s.poll.batch ∧ s.events fd = .epollIn := by
  have hs : Ok s := .run hrun
  refine (hs.attended fd w hopen ⟨hin, hunread⟩).imp_right fun hmem => ⟨hmem, ?_⟩
  rw [hs.events fd w hopen hmem, hin]

theorem unread_outstanding_twoLeft :
    let h : EpollEventHandler ReadStatus Unit :=
      ⟨(), fun status _ ctx => (status, ctx), fun _ ctx => (.writeAlive, ctx)⟩
    let as := [.accept 5 "GET".toList, .wait [5], .arrive 5 " /".toList,
      .handle .readContinue 3 true]
    ∃ s es w, (machine h 1000).run .init as = some (s, es) ∧
      s.poll.watched 5 = some w ∧ w.socket.incoming = " /".toList ∧
      (w.ready = true ∨ 5 ∈ s.poll.batch ∧ s.events 5 = .epollIn) := by
  intro h as
  have hrun : (machine h 1000).run .init as = some _ := rfl
  exact ⟨_, _, _, hrun, rfl, by decide, unread_outstanding hrun rfl rfl (by decide)⟩

end EpollSocket

end CppUtil.HttpServer
