import CppUtil.Tcp.Draining

/-!
# What is written to a connection

Descriptors are used again, so a connection is not its descriptor but the time
from an `accepted` event to the next `disconnected` event of the descriptor.
What the server writes to a connection are the chunks it reads from the others
in that time, in the order it reads them.

`owed` follows the events and keeps what the connection on a descriptor should
have got so far. Every step of the server keeps the bytes written in line with
it (`Moves.written`), and `Paired` says that events of a descriptor alternate.
-/

namespace CppUtil.Tcp

open Lang (Str)
open Lib

-- ---------------------------------------------------------------------------
-- Connections in a list of events
-- ---------------------------------------------------------------------------

def chunksOfOthers (fd : Fd) (es : List Event) : Str :=
  es.flatMap fun
    | .forwarded fd' bytes => if fd' = fd then [] else bytes
    | _ => []

def Event.Keeps (fd : Fd) : Event → Prop
  | .accepted fd' | .disconnected fd' _ => fd' ≠ fd
  | .forwarded _ _ => True

/-- One event, for what the connection on `fd` has got so far. -/
def Event.owe (fd : Fd) (got : Option Str) : Event → Option Str
  | .accepted fd' => if fd' = fd then some [] else got
  | .forwarded fd' bytes => if fd' = fd then got else got.map (· ++ bytes)
  | .disconnected fd' _ => if fd' = fd then none else got

def owed (fd : Fd) (es : List Event) : Option Str := es.foldl (Event.owe fd) none

theorem owed_append (fd : Fd) (es es' : List Event) :
    owed fd (es ++ es') = es'.foldl (Event.owe fd) (owed fd es) :=
  List.foldl_append

theorem owe_of_keeps (hkeeps : ∀ e ∈ es, e.Keeps fd) :
    es.foldl (Event.owe fd) (some got) = some (got ++ chunksOfOthers fd es) := by
  induction es generalizing got with
  | nil => simp [chunksOfOthers]
  | cons e es ih =>
    obtain ⟨he, hes⟩ := List.forall_mem_cons.mp hkeeps
    cases e with
    | accepted fd' | disconnected fd' _ =>
      simp only [List.foldl_cons, Event.owe, if_neg (show fd' ≠ fd from he), ih hes]
      rfl
    | forwarded fd' bytes =>
      simp only [List.foldl_cons, Event.owe, chunksOfOthers, List.flatMap_cons]
      split
      · exact ih hes
      · rw [Option.map_some, ih hes, List.append_assoc]
        rfl

theorem owed_since (hkeeps : ∀ e ∈ since, e.Keeps fd) :
    owed fd (before ++ .accepted fd :: since) = some (chunksOfOthers fd since) := by
  rw [owed_append, List.foldl_cons, Event.owe, if_pos rfl, owe_of_keeps hkeeps, List.nil_append]

/-- Connections on a descriptor are accepted when there is none, and end with
all that they have got. -/
def Event.Fits (es : List Event) : Event → Prop
  | .accepted fd => owed fd es = none
  | .forwarded _ _ => True
  | .disconnected fd written => owed fd es = some written

def Paired (es : List Event) : Prop := ∀ before e after, es = before ++ e :: after → e.Fits before

theorem Paired.nil : Paired [] := by
  rintro before e after h
  cases before <;> cases h

theorem Paired.append (h : Paired es) (he : e.Fits es) : Paired (es ++ [e]) := by
  intro before e' after heq
  rcases List.eq_nil_or_concat after with rfl | ⟨after, last, rfl⟩
  · obtain ⟨rfl, ⟨⟩⟩ := List.append_inj' heq rfl
    exact he
  · rw [List.concat_eq_append, ← List.cons_append, ← List.append_assoc] at heq
    obtain ⟨rfl, -⟩ := List.append_inj' heq rfl
    exact h before e' after rfl

-- ---------------------------------------------------------------------------
-- The server
-- ---------------------------------------------------------------------------

/-- What was written to the connection that is open on `fd`. -/
def writtenTo (p : Poll Fd Client) (fd : Fd) : Option Str :=
  (p.watched fd).map fun w => w.socket.written

variable {p : Poll Fd Client} {s s' : State}

theorem writtenTo_set (w : Option (Watched Client)) : writtenTo (p.set fd w) fd' =
    if fd' = fd then w.map fun w => w.socket.written else writtenTo p fd' := by
  simp only [writtenTo, Poll.watched_set]
  split <;> rfl

theorem writtenTo_handled (w : Option (Watched Client)) : writtenTo (p.handled fd w) fd' =
    if fd' = fd then w.map fun w => w.socket.written else writtenTo p fd' :=
  writtenTo_set w

theorem writtenTo_wait : writtenTo (p.wait fds) fd = writtenTo p fd := by
  simp only [writtenTo, Poll.watched_wait]
  split
  · rw [Option.map_map]
    rfl
  · rfl

theorem writtenTo_update (hw : p.watched fd = some w) (hsame : w'.socket.written = w.socket.written) :
    writtenTo (p.set fd (some w')) fd' = writtenTo p fd' := by
  rw [writtenTo_set]
  split
  · subst fd'
    simp only [writtenTo, hw, Option.map_some, hsame]
  · rfl

theorem writtenTo_forward (hnodup : fds.Nodup) (hfds : fd ∈ fds ↔ (p.watched fd).isSome) :
    writtenTo (forward sockFd buffer fds p) fd =
      if sockFd = fd then writtenTo p fd else (writtenTo p fd).map (· ++ buffer) := by
  simp only [writtenTo, forward_eq hnodup, Poll.mapSockets, Option.map_map]
  cases hw : p.watched fd with
  | none => simp
  | some w =>
    have hmem : fd ∈ fds := by simp [hfds, hw]
    by_cases hsock : sockFd = fd
    · simp [receives, hsock]
    · simp [receives, hsock, hmem, Ne.symm hsock, Client.write]

theorem Moves.written (hm : Moves s act s' es) (h : Ok s) (fd : Fd) :
    writtenTo s'.poll fd = es.foldl (Event.owe fd) (writtenTo s.poll fd) := by
  cases hm with
  | arrive hw | hangUp hw => exact writtenTo_update hw rfl
  | @accept fd' bytes eof hw =>
    simp only [State.acceptEventHandler, writtenTo_set, List.foldl_cons, List.foldl_nil, Event.owe,
      eq_comm (a := fd)]
    rfl
  | wait => exact writtenTo_wait
  | @closed fd' rest w hb hw =>
    simp only [writtenTo_handled, List.foldl_cons, List.foldl_nil, Event.owe, eq_comm (a := fd)]
    rfl
  | again hb hw => exact writtenTo_update hw rfl
  | @forward fd' rest w hb hw hin =>
    have hok : Ok { s with
        poll := s.poll.handled fd' (some { w with socket := w.socket.read }) } :=
      h.handled hb hw (h.accounted _ _ hw).read
    have hsame : writtenTo (s.poll.handled fd' (some { w with socket := w.socket.read })) fd =
        writtenTo s.poll fd := writtenTo_update hw rfl
    rw [writtenTo_forward h.nodup (hok.table fd), hsame]
    rfl

/-- A step emits one event at most, and that event fits. -/
theorem Moves.fits (hm : Moves s act s' es') (hgot : ∀ fd, writtenTo s.poll fd = owed fd es) :
    es' = [] ∨ ∃ e, es' = [e] ∧ e.Fits es := by
  cases hm with
  | arrive | hangUp | wait | again => exact .inl rfl
  | @accept fd bytes eof hw =>
    refine .inr ⟨_, rfl, ?_⟩
    rw [Event.Fits, ← hgot, writtenTo, hw, Option.map_none]
  | @closed fd rest w hb hw =>
    refine .inr ⟨_, rfl, ?_⟩
    rw [Event.Fits, ← hgot, writtenTo, hw, Option.map_some]
  | forward => exact .inr ⟨_, rfl, trivial⟩

structure Delivered (es : List Event) (s : State) : Prop where
  ok : Ok s
  written : ∀ fd, writtenTo s.poll fd = owed fd es
  paired : Paired es

theorem Delivered.step (h : Delivered es s) (hstep : machine.step s act = some (s', es')) :
    Delivered (es ++ es') s' := by
  have hm := step_moves hstep
  refine ⟨h.ok.step hstep, fun fd => ?_, ?_⟩
  · rw [hm.written h.ok fd, h.written fd, owed_append]
  · rcases hm.fits h.written with rfl | ⟨e, rfl, he⟩
    · rw [List.append_nil]
      exact h.paired
    · exact h.paired.append he

theorem Delivered.run (hrun : machine.run .init as = some (s, es)) : Delivered es s := by
  have hinit : Delivered [] .init := ⟨.init, fun _ => rfl, .nil⟩
  exact @Machine.run_keeps _ _ _ machine [] [] _ _ _ _ (fun _ _ => True) (fun _ => Delivered)
    (fun _ _ _ _ _ _ h _ hstep => h.step hstep) hinit .trivial hrun

-- ---------------------------------------------------------------------------
-- Every connection
-- ---------------------------------------------------------------------------

theorem keeps_or_first (fd : Fd) (es : List Event) : (∀ e ∈ es, e.Keeps fd) ∨
    ∃ since e rest, es = since ++ e :: rest ∧ (∀ e ∈ since, e.Keeps fd) ∧ ¬ e.Keeps fd := by
  induction es with
  | nil => exact .inl (by simp)
  | cons e es ih =>
    by_cases he : e.Keeps fd
    · rcases ih with hall | ⟨since, e', rest, rfl, hsince, hfirst⟩
      · exact .inl (List.forall_mem_cons.mpr ⟨he, hall⟩)
      · exact .inr ⟨e :: since, e', rest, rfl, List.forall_mem_cons.mpr ⟨he, hsince⟩, hfirst⟩
    · exact .inr ⟨[], e, es, rfl, by simp, he⟩

/-- Every connection has got the chunks that were read from the others since it
was accepted: until it ended, or until now. -/
theorem written_chunks_of_others (hrun : machine.run .init as = some (s, es))
    (haccepted : es = before ++ .accepted fd :: after) :
    (∃ since written rest, after = since ++ .disconnected fd written :: rest ∧
      (∀ e ∈ since, e.Keeps fd) ∧ written = chunksOfOthers fd since) ∨
    (∀ e ∈ after, e.Keeps fd) ∧
      ∃ w, s.poll.watched fd = some w ∧ w.socket.written = chunksOfOthers fd after := by
  have hd : Delivered es s := .run hrun
  rcases keeps_or_first fd after with hall | ⟨since, e, rest, rfl, hsince, hfirst⟩
  · have hgot := hd.written fd
    rw [haccepted, owed_since hall] at hgot
    exact .inr ⟨hall, Option.map_eq_some_iff.mp hgot⟩
  · have hfits := hd.paired (before ++ .accepted fd :: since) e rest (by simp [haccepted])
    cases e with
    | accepted fd' =>
      obtain rfl : fd' = fd := not_not.mp hfirst
      rw [Event.Fits, owed_since hsince] at hfits
      cases hfits
    | forwarded => exact absurd trivial hfirst
    | disconnected fd' written =>
      obtain rfl : fd' = fd := not_not.mp hfirst
      rw [Event.Fits, owed_since hsince] at hfits
      exact .inl ⟨since, written, rest, rfl, hsince, (Option.some.inj hfits).symm⟩

def reused : List Act :=
  [.accept 4 [] false, .accept 5 "hi".toList false, .wait [5], .handle, .hangUp 5, .wait [5], .handle,
    .accept 5 [] false, .arrive 4 "yo".toList, .wait [4], .handle]

theorem written_chunks_of_others_reused :
    let earlier : List Event :=
      [.accepted 4, .accepted 5, .forwarded 5 "hi".toList, .disconnected 5 []]
    ∃ s w, machine.run .init reused =
        some (s, earlier ++ .accepted 5 :: [.forwarded 4 "yo".toList]) ∧
      s.poll.watched 5 = some w ∧ w.socket.written = "yo".toList := by
  intro earlier
  obtain ⟨s, hrun⟩ : ∃ s, machine.run .init reused =
      some (s, earlier ++ .accepted 5 :: [.forwarded 4 "yo".toList]) := ⟨_, rfl⟩
  rcases written_chunks_of_others hrun rfl with
    ⟨since, written, rest, hends, -⟩ | ⟨-, w, hw, hwritten⟩
  · have hmem : Event.disconnected 5 written ∈ [Event.forwarded 4 "yo".toList] := by
      rw [hends]
      simp
    simp at hmem
  · exact ⟨s, w, hrun, hw, hwritten⟩

end CppUtil.Tcp
