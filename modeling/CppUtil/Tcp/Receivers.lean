import CppUtil.Lib.Machine
import CppUtil.Tcp.TcpClient

/-!
# The receive threads of several clients

The buffer of the receive thread is `static`, so the threads of all `TcpClient`s
of a process read into the same one. Between the `read` of a thread and its
`Split` the bytes are in the buffer only, and nothing keeps another thread from
clearing it or reading into it.

`printed_own`: every client prints what it has read, as if the buffer was its
own, in the runs in which no thread writes to the buffer while it holds the
bytes of another. Nothing in the code sees to that, so by
`printed_own_iff_one_client` all runs are right only for a single client.

A step is one call of the library or of the kernel. `select` and `read` that fail
and a `read` at the end of the stream end the process and have no step, and
neither has the NUL behind a full buffer.
-/

namespace CppUtil.Tcp

open Lang Lib

inductive Receiving
  | looping
  | selecting
  | clearing
  | reading
  | ending (nbytes : Nat)
  | splitting
  | printing (msgList : List Str)
  | returned
  deriving DecidableEq

structure Receiver where
  frame : Receiving := .looping
  isStop : Bool := false
  /-- What the calls of `read` have returned so far. -/
  reads : List Str := []

inductive ReceiverAct
  /-- `Disconnect`, up to its `join`. -/
  | disconnect
  | select (ready : Bool)
  | read (bytes : Str)
  | next
  deriving DecidableEq

def fill (buffer bytes : Str) : Str := bytes ++ buffer.drop bytes.length

namespace Receiver

def next (buffer : Str) (r : Receiver) : Option (Str × Receiver × List Str) :=
  match r.frame with
  | .looping => some (buffer, { r with frame := if r.isStop then .returned else .selecting }, [])
  | .clearing => some (List.replicate maxBufferSize nul, { r with frame := .reading }, [])
  | .ending nbytes =>
    if nbytes < maxBufferSize then
      some (buffer.set nbytes nul, { r with frame := .splitting }, [])
    else none
  | .splitting => some (buffer, { r with frame := .printing (split (cString buffer) '\n') }, [])
  | .printing (msg :: msgList) => some (buffer, { r with frame := .printing msgList }, [msg])
  | .printing [] => some (buffer, { r with frame := .looping }, [])
  | .selecting | .reading | .returned => none

def step (buffer : Str) (r : Receiver) : ReceiverAct → Option (Str × Receiver × List Str)
  | .disconnect => some (buffer, { r with isStop := true }, [])
  | .select ready =>
    if r.frame = .selecting then
      some (buffer, { r with frame := if ready then .clearing else .looping }, [])
    else none
  | .read bytes =>
    if r.frame = .reading ∧ 1 ≤ bytes.length ∧ bytes.length ≤ maxBufferSize then
      some (fill buffer bytes,
        { r with frame := .ending bytes.length, reads := r.reads ++ [bytes] }, [])
    else none
  | .next => r.next buffer

end Receiver

abbrev Receivers (Tid : Type) := Config Tid Str Receiver

namespace Receivers

variable {Tid : Type}

def init : Receivers Tid := ⟨List.replicate maxBufferSize nul, fun _ => {}⟩

def machine (Tid : Type) [DecidableEq Tid] : Machine (Receivers Tid) (Tid × ReceiverAct) (Tid × Str) :=
  .interleave fun _ => Receiver.step

end Receivers

-- ---------------------------------------------------------------------------
-- One thread
-- ---------------------------------------------------------------------------

theorem cString_end (h : bytes <+: buffer) (hlt : bytes.length < buffer.length) :
    cString (buffer.set bytes.length nul) = cString bytes := by
  obtain ⟨rest, rfl⟩ := h
  cases rest with
  | nil => simp at hlt
  | cons c rest => simp [cString_append_nul_eq]

theorem length_fill (h : bytes.length ≤ buffer.length) :
    (fill buffer bytes).length = buffer.length := by
  rw [fill, List.length_append, List.length_drop]
  omega

theorem receive_of_lt (h : bytes.length < maxBufferSize) :
    receive bytes = some (split (cString bytes) '\n') := by
  have hlt : bytes.length < (readBuffer bytes).length := by
    simp only [readBuffer, List.length_append, List.length_replicate]
    omega
  have hend : cString ((readBuffer bytes).set bytes.length nul) = cString bytes :=
    cString_end (List.prefix_append ..) hlt
  simp only [receive, if_pos hlt, hend]

theorem receiveAll_concat (h : receiveAll reads = some printed)
    (hbytes : receive bytes = some msgs) : receiveAll (reads ++ [bytes]) = some (printed ++ msgs) := by
  induction reads generalizing printed with
  | nil =>
    cases h
    simp [receiveAll, hbytes]
  | cons first reads ih =>
    obtain ⟨own, hown, h⟩ := Option.bind_eq_some_iff.mp h
    obtain ⟨more, hmore, rfl⟩ := Option.map_eq_some_iff.mp h
    simp [receiveAll, hown, ih hmore]

/-- The bytes of the last `read` of the thread are in the buffer only. -/
def Receiving.Holds : Receiving → Prop
  | .ending _ | .splitting => True
  | .looping | .selecting | .clearing | .reading | .printing _ | .returned => False

/-- The step of the thread writes to the buffer. -/
def Receiver.Writes (r : Receiver) : ReceiverAct → Prop
  | .read _ => True
  | .next =>
    match r.frame with
    | .clearing | .ending _ => True
    | _ => False
  | .disconnect | .select _ => False

def Receiver.Own (buffer : Str) (printed : List Str) (r : Receiver) : Prop :=
  match r.frame with
  | .ending nbytes => ∃ reads bytes, r.reads = reads ++ [bytes] ∧ receiveAll reads = some printed ∧
      nbytes = bytes.length ∧ bytes <+: buffer
  | .splitting => ∃ reads bytes, r.reads = reads ++ [bytes] ∧ receiveAll reads = some printed ∧
      receive bytes = some (split (cString buffer) '\n')
  | .printing msgList => receiveAll r.reads = some (printed ++ msgList)
  | .looping | .selecting | .clearing | .reading | .returned => receiveAll r.reads = some printed

namespace Receiver

variable {r r' : Receiver} {buffer buffer' : Str}

theorem Own.next (h : r.Own buffer printed) (hlen : buffer.length = maxBufferSize)
    (hs : r.next buffer = some (buffer', r', msgs)) :
    r'.Own buffer' (printed ++ msgs) ∧ buffer'.length = maxBufferSize := by
  unfold Own at h
  unfold Receiver.next at hs
  cases hfr : r.frame with
  | looping =>
    rw [hfr] at h hs
    cases hs
    rw [List.append_nil]
    refine ⟨?_, hlen⟩
    cases hstop : r.isStop <;> exact h
  | clearing =>
    rw [hfr] at h hs
    cases hs
    rw [List.append_nil]
    exact ⟨h, List.length_replicate⟩
  | ending nbytes =>
    rw [hfr] at h hs
    obtain ⟨hlt, hs⟩ := Option.ite_none_right_eq_some.mp hs
    cases hs
    obtain ⟨reads, bytes, hreads, hprinted, rfl, hbytes⟩ := h
    rw [List.append_nil]
    refine ⟨⟨reads, bytes, hreads, hprinted, ?_⟩, by rw [List.length_set, hlen]⟩
    rw [receive_of_lt hlt, cString_end hbytes (by rwa [hlen])]
  | splitting =>
    rw [hfr] at h hs
    cases hs
    obtain ⟨reads, bytes, hreads, hprinted, hbytes⟩ := h
    rw [List.append_nil]
    refine ⟨?_, hlen⟩
    rw [Own, hreads]
    exact receiveAll_concat hprinted hbytes
  | printing msgList =>
    rw [hfr] at h hs
    cases msgList with
    | nil =>
      cases hs
      exact ⟨h, hlen⟩
    | cons msg msgList =>
      cases hs
      exact ⟨h.trans (congrArg some (List.append_cons ..)), hlen⟩
  | selecting | reading | returned =>
    rw [hfr] at hs
    cases hs

theorem Own.step (h : r.Own buffer printed) (hlen : buffer.length = maxBufferSize)
    (hs : r.step buffer act = some (buffer', r', msgs)) :
    r'.Own buffer' (printed ++ msgs) ∧ buffer'.length = maxBufferSize := by
  cases act with
  | disconnect =>
    cases hs
    rw [List.append_nil]
    exact ⟨h, hlen⟩
  | select ready =>
    obtain ⟨hfr, hs⟩ := Option.ite_none_right_eq_some.mp hs
    cases hs
    rw [Own, hfr] at h
    rw [List.append_nil]
    refine ⟨?_, hlen⟩
    cases ready <;> exact h
  | read bytes =>
    obtain ⟨⟨hfr, -, hle⟩, hs⟩ := Option.ite_none_right_eq_some.mp hs
    cases hs
    rw [Own, hfr] at h
    rw [List.append_nil]
    refine ⟨⟨r.reads, bytes, rfl, h, rfl, List.prefix_append ..⟩, ?_⟩
    rw [length_fill (by rwa [hlen]), hlen]
  | next => exact h.next hlen hs

theorem Own.of_not_holds (h : r.Own buffer printed) (hr : ¬ r.frame.Holds) :
    r.Own buffer' printed := by
  unfold Own at h ⊢
  cases hfr : r.frame with
  | ending | splitting => exact absurd (by rw [hfr]; trivial) hr
  | looping | selecting | clearing | reading | printing | returned =>
    rw [hfr] at h
    exact h

theorem buffer_eq (hs : r.step buffer act = some (buffer', r', msgs)) (hw : ¬ r.Writes act) :
    buffer' = buffer := by
  cases act with
  | disconnect =>
    cases hs
    rfl
  | select ready =>
    obtain ⟨-, hs⟩ := Option.ite_none_right_eq_some.mp hs
    cases hs
    rfl
  | read => exact absurd trivial hw
  | next =>
    simp only [Receiver.step, Receiver.next] at hs
    simp only [Writes] at hw
    cases hfr : r.frame with
    | clearing | ending => simp [hfr] at hw
    | looping | splitting =>
      rw [hfr] at hs
      cases hs
      rfl
    | printing msgList => cases msgList <;> (rw [hfr] at hs; cases hs; rfl)
    | selecting | reading | returned =>
      rw [hfr] at hs
      cases hs

end Receiver

-- ---------------------------------------------------------------------------
-- All threads
-- ---------------------------------------------------------------------------

namespace Receivers

variable {Tid : Type} [DecidableEq Tid] {s s' : Receivers Tid}

/-- Who writes to the buffer leaves no other thread's bytes in it. -/
def Exclusive (s : Receivers Tid) (x : Tid × ReceiverAct) : Prop :=
  (s.threads x.1).Writes x.2 → ∀ u, u ≠ x.1 → ¬ (s.threads u).frame.Holds

structure Own (os : List (Tid × Str)) (s : Receivers Tid) : Prop where
  length : s.shared.length = maxBufferSize
  own : ∀ t, (s.threads t).Own s.shared (ofThread t os)

theorem Own.init : Own [] (init : Receivers Tid) :=
  ⟨List.length_replicate, fun _ => rfl⟩

theorem Own.step (h : Own os s) (hx : Exclusive s x) (hs : (machine Tid).step s x = some (s', o)) :
    Own (os ++ o) s' := by
  obtain ⟨t, act⟩ := x
  obtain ⟨buffer, r, msgs, hstep, rfl, rfl⟩ := Machine.interleave_step_iff.mp hs
  obtain ⟨hown, hlen⟩ := (h.own t).step h.length hstep
  refine ⟨hlen, (Function.forall_update_iff s.threads
    fun u r => r.Own buffer (ofThread u (os ++ msgs.map fun e => (t, e)))).mpr ⟨?_, fun u hu => ?_⟩⟩
  · rwa [ofThread_append, ofThread_map, if_pos rfl]
  · rw [ofThread_append, ofThread_map, if_neg (Ne.symm hu), List.append_nil]
    by_cases hw : (s.threads t).Writes act
    · exact (h.own u).of_not_holds (hx hw u hu)
    · rw [Receiver.buffer_eq hstep hw]
      exact h.own u

/-- At the head of its loop a client has printed the messages of what it has
read, as if it was the only one. -/
theorem printed_own (hx : (machine Tid).Meets Exclusive init as)
    (hrun : (machine Tid).run init as = some (s, os)) (hfr : (s.threads t).frame = .looping) :
    receiveAll (s.threads t).reads = some (ofThread t os) := by
  have h : Own os s := @Machine.run_keeps _ _ _ (machine Tid) [] [] _ _ _ _ Exclusive
    (fun _ => Own) (fun _ _ _ _ _ _ h hx hs => h.step hx hs) .init hx hrun
  have hown := h.own t
  rwa [Receiver.Own, hfr] at hown

def upToRead (t : Tid) (bytes : Str) : List (Tid × ReceiverAct) :=
  [ReceiverAct.next, .select true, .next, .read bytes].map fun act => (t, act)

def rest (t : Tid) : List (Tid × ReceiverAct) :=
  [ReceiverAct.next, .next, .next, .next].map fun act => (t, act)

theorem run_upToRead (h : s.threads t = {}) (bytes : Str)
    (hread : 1 ≤ bytes.length ∧ bytes.length ≤ maxBufferSize) :
    (machine Tid).run s (upToRead t bytes) =
      some (⟨fill (List.replicate maxBufferSize nul) bytes,
        Function.update s.threads t { frame := .ending bytes.length, reads := [bytes] }⟩, []) := by
  have hsolo : (Machine.solo (fun _ : Tid => Receiver.step) t).run (s.shared, s.threads t)
      [.next, .select true, .next, .read bytes] =
        some ((fill (List.replicate maxBufferSize nul) bytes,
          { frame := .ending bytes.length, reads := [bytes] }), []) := by
    simp [h, Machine.run, Machine.solo, Receiver.step, Receiver.next, hread]
  exact Machine.run_of_solo hsolo

theorem run_rest (reads : List Str) (h : s.threads t = { frame := .ending nbytes, reads })
    (hlt : nbytes < maxBufferSize)
    (hmsg : split (cString (s.shared.set nbytes nul)) '\n' = [msg]) :
    (machine Tid).run s (rest t) = some (⟨s.shared.set nbytes nul,
      Function.update s.threads t { reads }⟩, [(t, msg)]) := by
  have hsolo : (Machine.solo (fun _ : Tid => Receiver.step) t).run (s.shared, s.threads t)
      [.next, .next, .next, .next] = some ((s.shared.set nbytes nul, { reads }), [msg]) := by
    simp [h, Machine.run, Machine.solo, Receiver.step, Receiver.next, hlt, hmsg]
  exact Machine.run_of_solo hsolo

def overtaken (t u : Tid) : List (Tid × ReceiverAct) :=
  upToRead t "a\n".toList ++ (upToRead u "b\n".toList ++ rest t)

theorem run_overtaken (h : t ≠ u) : ∃ s, (machine Tid).run init (overtaken t u) =
      some (s, [(t, "b".toList)]) ∧ s.threads t = { reads := ["a\n".toList] } ∧
      (s.threads u).reads = ["b\n".toList] := by
  have hmsg : split (cString ((fill (List.replicate maxBufferSize nul) "b\n".toList).set 2 nul))
      '\n' = ["b".toList] := by
    have hlt : "b\n".toList.length <
        (fill (List.replicate maxBufferSize nul) "b\n".toList).length := by
      rw [length_fill] <;> simp only [List.length_replicate] <;> decide
    exact (congrArg (split · '\n') (cString_end (List.prefix_append ..) hlt)).trans (by decide)
  have h₁ := run_upToRead (s := init) (t := t) rfl "a\n".toList (by decide)
  refine ⟨_, Machine.run_append_iff.mpr ⟨_, _, _, h₁, Machine.run_append_iff.mpr
    ⟨_, _, _, run_upToRead ?_ "b\n".toList ?_, run_rest ["a\n".toList] ?_ ?_ hmsg, rfl⟩, rfl⟩, Function.update_self .., ?_⟩
  · exact Function.update_of_ne (Ne.symm h) ..
  · decide
  · exact (Function.update_of_ne h ..).trans (Function.update_self ..)
  · decide
  · simp only [Function.update_of_ne (Ne.symm h), Function.update_self]

end Receivers

end CppUtil.Tcp
