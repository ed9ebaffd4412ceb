import CppUtil.Lockfree.LockFreeStackRuns

/-!
# A `LockFreeStack` as a sequential stack

When no node is pushed twice, a node has one `next` from the moment it is on
the list, so what a `Pop` has read is never out of date. `pops_linearize`:
taken at their successful exchanges, and an empty `Pop` at its load, the calls
are the calls of a sequential stack, and the list from `head_` is that stack.
-/

namespace CppUtil.Lockfree

open Lib

attribute [local instance] neZero_two

variable {Tid Node : Type}

-- ---------------------------------------------------------------------------
-- The sequential stack
-- ---------------------------------------------------------------------------

/-- What a call does to a sequential stack. A `Pop` has to return its top, or
null if there is none. -/
def Event.onStack [DecidableEq Node] (stack : List Node) : Event Node → Option (List Node)
  | .pushed n => some (n :: stack)
  | .popped r => if r = stack.head? then some stack.tail else none

inductive Call (Node : Type)
  | push (node : Node)
  | pop
  deriving DecidableEq

def Event.call : Event Node → Call Node
  | .pushed n => .push n
  | .popped _ => .pop

def Act.calls : Act Node → List (Call Node)
  | .push n => [.push n]
  | .pop => [.pop]
  | .next | .spurious => []

/-- The call a thread is in, which has not taken effect yet. -/
def Frame.pending : Frame Node → List (Call Node)
  | .idle => []
  | .pushing n | .linking n _ | .pushExchange n _ => [.push n]
  | .popping | .reading _ | .popExchange _ _ => [.pop]

def pushes (as : List (Tid × Act Node)) : List Node :=
  as.filterMap fun
    | (_, .push n) => some n
    | _ => none

-- ---------------------------------------------------------------------------
-- One step
-- ---------------------------------------------------------------------------

/-- What a thread knows about nodes, where `done` are those whose push has taken
effect: the node it pushes is not one of them, and a node it has found on the
list is, with the `next` that it read. -/
def Frame.Sound (sh : Shared Node) (done : Node → Prop) : Frame Node → Prop
  | .idle | .popping => True
  | .pushing n | .linking n _ => ¬ done n
  | .pushExchange n h => ¬ done n ∧ sh.next n = h
  | .reading a => done a
  | .popExchange a n => done a ∧ sh.next a = n

variable {done done' : Node → Prop} {sh sh' : Shared Node}

theorem Frame.Sound.keep {fr : Frame Node} (h : fr.Sound sh done)
    (hnext : ∀ n, done n ∨ n ∈ fr.node → sh'.next n = sh.next n)
    (hdone : ∀ n, done n → done' n) (hnode : ∀ n ∈ fr.node, done' n → done n) :
    fr.Sound sh' done' := by
  cases fr with
  | idle | popping => trivial
  | pushing n | linking n => exact fun hn => h (hnode n (List.mem_singleton_self n) hn)
  | pushExchange n q =>
    have hn := List.mem_singleton_self n
    exact ⟨fun hd => h.1 (hnode n hn hd), (hnext n (.inr hn)).trans h.2⟩
  | reading a => exact hdone a h
  | popExchange a n => exact ⟨hdone a h.1, (hnext a (.inl h.1)).trans h.2⟩

theorem Frame.Sound.not_done {fr : Frame Node} (h : fr.Sound sh done) (hn : n ∈ fr.node) :
    ¬ done n := by
  cases fr with
  | idle | popping | reading | popExchange => cases hn
  | pushing | linking =>
    cases List.mem_singleton.mp hn
    exact h
  | pushExchange =>
    cases List.mem_singleton.mp hn
    exact h.1

variable [DecidableEq Node]

structure Thread.Pushes (done : Node → Prop) (sh : Shared Node) (th : Thread Node) (l : List Node)
    (act : Act Node) (sh' : Shared Node) (th' : Thread Node) (l' : List Node)
    (o : List (Event Node)) : Prop where
  linked : Linked sh'.next sh'.head_ l'
  stack : o.foldlM Event.onStack l = some l'
  listed : ∀ n ∈ l', n ∈ l ∨ .pushed n ∈ o
  sound : th'.frame.Sound sh' fun n => done n ∨ .pushed n ∈ o
  keeps : ∀ n, n ∉ th.frame.node → sh'.next n = sh.next n
  pushed : ∀ n, .pushed n ∈ o → n ∈ th.frame.node
  node : ∀ n ∈ th'.frame.node, n ∈ th.frame.node ∨ act = .push n
  calls : th.frame.pending ++ act.calls = o.map Event.call ++ th'.frame.pending

variable {th th' : Thread Node} {l : List Node}

theorem Thread.pushes_frame (hl : Linked sh.next sh.head_ l) (hsound : fr.Sound sh done)
    (hnode : ∀ n ∈ fr.node, n ∈ th.frame.node ∨ act = .push n)
    (hcalls : th.frame.pending ++ act.calls = fr.pending) :
    th.Pushes done sh l act sh ⟨own, fr⟩ l [] where
  linked := hl
  stack := rfl
  listed _ hn := .inl hn
  sound := by simpa using hsound
  keeps _ _ := rfl
  pushed := by simp
  node := hnode
  calls := hcalls

theorem Thread.pushes_linking (hl : Linked sh.next sh.head_ l) (hdone : ∀ n ∈ l, done n)
    (hsound : th.frame.Sound sh done) (hfr : th.frame = .linking n h) :
    th.Pushes done sh l .next { sh with next := Function.update sh.next n h }
      { th with frame := .pushExchange n h } l [] := by
  rw [hfr] at hsound
  exact {
    linked := hl.update fun hn => hsound (hdone n hn)
    stack := rfl
    listed := fun _ hn => .inl hn
    sound := by simpa [Frame.Sound] using hsound
    keeps := by
      intro m hm
      rw [hfr] at hm
      exact Function.update_of_ne (by simpa [Frame.node] using hm) ..
    pushed := by simp
    node := by simp [hfr, Frame.node]
    calls := by simp [hfr, Frame.pending, Act.calls] }

theorem Thread.pushes_pushExchange (hl : Linked sh.next sh.head_ l)
    (hsound : th.frame.Sound sh done) (hfr : th.frame = .pushExchange n h) (hh : sh.head_ = h) :
    th.Pushes done sh l .next { sh with head_ := some n } { th with frame := .idle } (n :: l)
      [.pushed n] := by
  rw [hfr] at hsound
  have hlinked : Linked sh.next (sh.next n) l := by rwa [hsound.2, ← hh]
  exact {
    linked := linked_cons_iff.mpr ⟨rfl, hlinked⟩
    stack := rfl
    listed := by simp [or_comm]
    sound := trivial
    keeps := fun _ _ => rfl
    pushed := by simp [hfr, Frame.node]
    node := by simp [Frame.node]
    calls := by simp [hfr, Frame.pending, Act.calls, Event.call] }

theorem Thread.pushes_popEmpty (hl : Linked sh.next sh.head_ l) (hfr : th.frame = .popping)
    (hh : sh.head_ = none) :
    th.Pushes done sh l .next sh { th with frame := .idle } l [.popped none] := by
  have hnil : l = [] := by rwa [hh, linked_none_iff] at hl
  exact {
    linked := hl
    stack := by simp [hnil, Event.onStack]
    listed := fun _ hn => .inl hn
    sound := trivial
    keeps := fun _ _ => rfl
    pushed := by simp
    node := by simp [Frame.node]
    calls := by simp [hfr, Frame.pending, Act.calls, Event.call] }

/-- The node that is taken off has the `next` that was read, so what is left is
the rest of the stack. -/
theorem Thread.pushes_popExchange (hl : Linked sh.next sh.head_ l)
    (hsound : th.frame.Sound sh done) (hfr : th.frame = .popExchange a n)
    (hh : sh.head_ = some a) :
    ∃ l', th.Pushes done sh l .next { sh with head_ := n } ⟨a :: th.owned, .idle⟩ l'
      [.popped (some a)] := by
  rw [hfr] at hsound
  rw [hh, linked_some_iff, hsound.2] at hl
  obtain ⟨l', rfl, hl'⟩ := hl
  exact ⟨l', {
    linked := hl'
    stack := by simp [Event.onStack]
    listed := fun _ hm => .inl (List.mem_cons_of_mem _ hm)
    sound := trivial
    keeps := fun _ _ => rfl
    pushed := by simp
    node := by simp [Frame.node]
    calls := by simp [hfr, Frame.pending, Act.calls, Event.call] }⟩

theorem Thread.next_pushes (hl : Linked sh.next sh.head_ l) (hdone : ∀ n ∈ l, done n)
    (hsound : th.frame.Sound sh done) (hs : th.next sh = some (sh', th', o)) :
    ∃ l', th.Pushes done sh l .next sh' th' l' o := by
  unfold Thread.next at hs
  cases hfr : th.frame with
  | idle =>
    rw [hfr] at hs
    cases hs
  | pushing n =>
    rw [hfr] at hs hsound
    cases hs
    exact ⟨l, Thread.pushes_frame hl hsound (by simp [hfr, Frame.node]) (by rw [hfr]; rfl)⟩
  | linking n h =>
    rw [hfr] at hs
    cases hs
    exact ⟨l, Thread.pushes_linking hl hdone hsound hfr⟩
  | pushExchange n h =>
    rw [hfr] at hs
    dsimp only at hs
    split at hs
    · cases hs
      exact ⟨n :: l, Thread.pushes_pushExchange hl hsound hfr ‹_›⟩
    · cases hs
      rw [hfr] at hsound
      exact ⟨l, Thread.pushes_frame hl hsound.1 (by simp [hfr, Frame.node]) (by rw [hfr]; rfl)⟩
  | popping =>
    rw [hfr] at hs
    dsimp only at hs
    split at hs
    next hh =>
      cases hs
      exact ⟨l, Thread.pushes_popEmpty hl hfr hh⟩
    next a hh =>
      cases hs
      have ha : a ∈ l := by
        rw [hh, linked_some_iff] at hl
        obtain ⟨l', rfl, -⟩ := hl
        exact List.mem_cons_self
      exact ⟨l, Thread.pushes_frame hl (hdone a ha) (by simp [Frame.node]) (by rw [hfr]; rfl)⟩
  | reading a =>
    rw [hfr] at hs hsound
    cases hs
    exact ⟨l, Thread.pushes_frame hl ⟨hsound, rfl⟩ (by simp [Frame.node]) (by rw [hfr]; rfl)⟩
  | popExchange a n =>
    rw [hfr] at hs
    dsimp only at hs
    split at hs
    · cases hs
      exact Thread.pushes_popExchange hl hsound hfr ‹_›
    · cases hs
      exact ⟨l, Thread.pushes_frame hl trivial (by simp [Frame.node]) (by rw [hfr]; rfl)⟩

theorem Thread.step_pushes (hl : Linked sh.next sh.head_ l) (hdone : ∀ n ∈ l, done n)
    (hsound : th.frame.Sound sh done) (hnew : ∀ n, act = .push n → ¬ done n)
    (hs : th.step sh act = some (sh', th', o)) :
    ∃ l', th.Pushes done sh l act sh' th' l' o := by
  unfold Thread.step at hs
  cases act with
  | next => exact Thread.next_pushes hl hdone hsound hs
  | push n =>
    cases hfr : th.frame <;> rw [hfr] at hs
    case idle =>
      simp only [Option.ite_none_right_eq_some] at hs
      obtain ⟨-, ⟨⟩⟩ := hs
      exact ⟨l, Thread.pushes_frame hl (hnew n rfl) (by simp [Frame.node]) (by rw [hfr]; rfl)⟩
    all_goals cases hs
  | pop =>
    cases hfr : th.frame <;> rw [hfr] at hs <;> cases hs
    exact ⟨l, Thread.pushes_frame hl trivial (by simp [Frame.node]) (by rw [hfr]; rfl)⟩
  | spurious =>
    -- a failed exchange starts the call again
    cases hfr : th.frame <;> rw [hfr] at hs hsound <;> cases hs
    · exact ⟨l, Thread.pushes_frame hl hsound.1 (by simp [hfr, Frame.node]) (by rw [hfr]; rfl)⟩
    · exact ⟨l, Thread.pushes_frame hl trivial (by simp [Frame.node]) (by rw [hfr]; rfl)⟩

-- ---------------------------------------------------------------------------
-- All threads
-- ---------------------------------------------------------------------------

variable [DecidableEq Tid]

def callsOf (t : Tid) (as : List (Tid × Act Node)) : List (Call Node) :=
  (ofThread t as).flatMap Act.calls

def effectsOf (t : Tid) (os : List (Tid × Event Node)) : List (Call Node) :=
  (ofThread t os).map Event.call

def Done (os : List (Tid × Event Node)) (n : Node) : Prop := .pushed n ∈ os.map Prod.snd

/-- The stack after the events `os` is `l`, it is the list from `head_`, and
the threads and the actions go with it. -/
structure Stacked (as : List (Tid × Act Node)) (os : List (Tid × Event Node))
    (s : State Tid Node) (l : List Node) : Prop where
  linked : Linked s.shared.next s.shared.head_ l
  stack : (os.map Prod.snd).foldlM Event.onStack [] = some l
  calls : ∀ t, callsOf t as = effectsOf t os ++ (s.threads t).frame.pending
  listed : ∀ n ∈ l, Done os n
  sound : ∀ t, (s.threads t).frame.Sound s.shared (Done os)
  apart : ∀ t u n, n ∈ (s.threads t).frame.node → n ∈ (s.threads u).frame.node → t = u
  entered : ∀ t, ∀ n ∈ (s.threads t).frame.node, n ∈ pushes as
  done : ∀ n, Done os n → n ∈ pushes as

variable {s s' : State Tid Node}

theorem Stacked.init (next : Node → Option Node) (owned : Tid → List Node) :
    Stacked [] [] (State.init next owned) [] where
  linked := trivial
  stack := rfl
  calls _ := rfl
  listed := by simp
  sound _ := trivial
  apart := by simp [State.init, Frame.node]
  entered := by simp [State.init, Frame.node]
  done := by simp [Done]

omit [DecidableEq Tid] [DecidableEq Node] in
theorem done_append (os : List (Tid × Event Node)) (t : Tid) (o : List (Event Node)) (n : Node) :
    Done (os ++ o.map fun e => (t, e)) n ↔ Done os n ∨ .pushed n ∈ o := by
  simp [Done]

omit [DecidableEq Tid] [DecidableEq Node] in
theorem pushes_concat (as : List (Tid × Act Node)) (t : Tid) (act : Act Node) :
    pushes (as ++ [(t, act)]) = pushes as ++ pushes [(t, act)] :=
  List.filterMap_append

omit [DecidableEq Tid] [DecidableEq Node] in
theorem mem_pushes_concat {as : List (Tid × Act Node)} (hn : n ∈ pushes as) (t : Tid) (act : Act Node) :
    n ∈ pushes (as ++ [(t, act)]) :=
  pushes_concat as t act ▸ List.mem_append_left _ hn

section
variable {as : List (Tid × Act Node)} {os : List (Tid × Event Node)} {l' : List Node} {t : Tid}
  {act : Act Node} {es : List (Event Node)} (h : Stacked as os s l)
  (hm : (s.threads t).Pushes (Done os) s.shared l act sh th l' es)
  (hfresh : ∀ n, act = .push n → n ∉ pushes as)
include h

theorem Stacked.mem_pushes (hn : n ∈ (s.threads t).frame.node ∨ act = .push n) :
    n ∈ pushes (as ++ [(t, act)]) := by
  rcases hn with hn | rfl
  · exact mem_pushes_concat (h.entered t n hn) t act
  · simp [pushes]

include hfresh in
theorem Stacked.node_other (hu : u ≠ t) (hn : n ∈ (s.threads u).frame.node) :
    n ∉ (s.threads t).frame.node ∧ act ≠ .push n :=
  ⟨fun ht => hu (h.apart u t n hn ht), fun ha => hfresh n ha (h.entered u n hn)⟩

include hm

theorem Stacked.calls_step (u : Tid) :
    callsOf u (as ++ [(t, act)]) = effectsOf u (os ++ es.map fun e => (t, e)) ++
      (Function.update s.threads t th u).frame.pending := by
  rw [callsOf, flatMap_ofThread_concat, effectsOf, map_ofThread_append, ← callsOf, ← effectsOf,
    h.calls u]
  by_cases hu : t = u
  · subst hu
    simp [hm.calls]
  · simp [hu, Function.update_of_ne (Ne.symm hu)]

theorem Stacked.entered_step : ∀ u,
    ∀ n ∈ (Function.update s.threads t th u).frame.node, n ∈ pushes (as ++ [(t, act)]) := by
  refine (Function.forall_update_iff s.threads
    fun _ th => ∀ n ∈ th.frame.node, n ∈ pushes (as ++ [(t, act)])).mpr ⟨?_, fun u _ n hn => ?_⟩
  · exact fun n hn => h.mem_pushes (hm.node n hn)
  · exact mem_pushes_concat (h.entered u n hn) t act

theorem Stacked.done_step (hn : Done (os ++ es.map fun e => (t, e)) n) :
    n ∈ pushes (as ++ [(t, act)]) := by
  rcases (done_append os t es n).mp hn with hd | hp
  · exact mem_pushes_concat (h.done n hd) t act
  · exact h.mem_pushes (.inl (hm.pushed n hp))

include hfresh

theorem Stacked.sound_step : ∀ u,
    (Function.update s.threads t th u).frame.Sound sh (Done (os ++ es.map fun e => (t, e))) := by
  have hd : Done (os ++ es.map fun e => (t, e)) = fun n => Done os n ∨ .pushed n ∈ es :=
    funext fun n => propext (done_append os t es n)
  rw [hd]
  refine (Function.forall_update_iff s.threads
    fun _ th => th.frame.Sound sh fun n => Done os n ∨ .pushed n ∈ es).mpr
      ⟨hm.sound, fun u hu => ?_⟩
  refine (h.sound u).keep (fun n hn => hm.keeps n ?_) (fun n => .inl) (fun n hn hd => ?_)
  · rcases hn with hn | hn
    · exact fun ht => (h.sound t).not_done ht hn
    · exact (h.node_other hfresh hu hn).1
  · exact hd.resolve_right fun hp => (h.node_other hfresh hu hn).1 (hm.pushed n hp)

theorem Stacked.apart_step (hu : n ∈ (Function.update s.threads t th u).frame.node)
    (hv : n ∈ (Function.update s.threads t th v).frame.node) : u = v := by
  have hmoved : ∀ w, w ≠ t → n ∈ th.frame.node → n ∉ (s.threads w).frame.node := by
    intro w hw hn hother
    obtain ⟨hnode, hpush⟩ := h.node_other hfresh hw hother
    exact (hm.node n hn).elim hnode hpush
  by_cases hut : u = t <;> by_cases hvt : v = t
  · rw [hut, hvt]
  · subst hut
    simp only [Function.update_self, Function.update_of_ne hvt] at hu hv
    exact absurd hv (hmoved v hvt hu)
  · subst hvt
    simp only [Function.update_self, Function.update_of_ne hut] at hu hv
    exact absurd hu (hmoved u hut hv)
  · simp only [Function.update_of_ne hut, Function.update_of_ne hvt] at hu hv
    exact h.apart u v n hu hv

end

theorem Stacked.step {x : Tid × Act Node} (h : Stacked as os s l)
    (honce : (pushes (as ++ [x])).Nodup) (hs : (machine Tid Node).step s x = some (s', o)) :
    ∃ l', Stacked (as ++ [x]) (os ++ o) s' l' := by
  obtain ⟨t, act⟩ := x
  obtain ⟨sh, th, es, hstep, rfl, rfl⟩ := Machine.interleave_step_iff.mp hs
  rw [pushes_concat] at honce
  -- a node that is pushed now was not pushed before
  have hfresh : ∀ n, act = .push n → n ∉ pushes as := by
    rintro n rfl hn
    exact List.disjoint_of_nodup_append honce hn (by simp [pushes])
  obtain ⟨l', hm⟩ := Thread.step_pushes h.linked h.listed (h.sound t)
    (fun n hn hd => hfresh n hn (h.done n hd)) hstep
  exact ⟨l', {
    linked := hm.linked
    stack := by simp [List.foldlM_append, h.stack, hm.stack, Function.comp_def]
    calls := h.calls_step hm
    listed := fun n hn => (done_append os t es n).mpr ((hm.listed n hn).imp_left (h.listed n))
    sound := h.sound_step hm hfresh
    apart := fun _ _ _ hu hv => h.apart_step hm hfresh hu hv
    entered := h.entered_step hm
    done := fun _ hn => h.done_step hm hn }⟩

/-- If no node is pushed twice, the calls of any run, in the order in which they
take effect, are a history of a sequential stack, and the list from `head_` is
what is on it. Each thread's calls take effect once each and in order, except
for the one it is still in. -/
theorem pops_linearize (next : Node → Option Node) (owned : Tid → List Node)
    (as : List (Tid × Act Node)) (honce : (pushes as).Nodup)
    (hrun : (machine Tid Node).run (State.init next owned) as = some (s, os)) :
    ∃ l, (os.map Prod.snd).foldlM Event.onStack [] = some l ∧
      Linked s.shared.next s.shared.head_ l ∧
      ∀ t, callsOf t as = effectsOf t os ++ (s.threads t).frame.pending := by
  have h := Machine.run_keeps (fun _ _ => True)
    (fun as os s => (pushes as).Nodup → ∃ l, Stacked as os s l) ?_
    (fun _ => ⟨[], Stacked.init next owned⟩) Machine.Meets.trivial hrun
  · obtain ⟨l, hl⟩ := h honce
    exact ⟨l, hl.stack, hl.linked, hl.calls⟩
  · rintro as os s ⟨t, act⟩ o s' ih - hs honce
    have hbefore := honce
    rw [pushes_concat] at hbefore
    obtain ⟨l, hl⟩ := ih hbefore.of_append_left
    exact hl.step honce hs

def poppedByBoth : List (Fin 2 × Act (Fin 2)) :=
  push 0 1 ++ push 0 0 ++ [(1, .pop), (1, .next), (1, .next)] ++ pop 0 ++
    [(1, .next), (1, .next), (1, .next), (1, .spurious), (1, .next), (1, .next), (1, .next),
      (0, .pop), (0, .next)]

set_option maxRecDepth 4000 in
theorem pops_linearize_poppedByBoth :
    ∃ s os, (machine (Fin 2) (Fin 2)).run (State.init (fun _ => none) twoNodes) poppedByBoth =
        some (s, os) ∧
      os.map Prod.snd = [.pushed 1, .pushed 0, .popped (some 0), .popped (some 1), .popped none] ∧
      ∃ l, (os.map Prod.snd).foldlM Event.onStack [] = some l ∧
        Linked s.shared.next s.shared.head_ l := by
  have h : ((machine (Fin 2) (Fin 2)).run (State.init (fun _ => none) twoNodes) poppedByBoth).map
      (fun r => r.2.map Prod.snd) =
      some [.pushed 1, .pushed 0, .popped (some 0), .popped (some 1), .popped none] := by decide
  obtain ⟨⟨s, os⟩, hrun, hs⟩ := Option.map_eq_some_iff.mp h
  obtain ⟨l, hstack, hlinked, -⟩ := pops_linearize _ _ poppedByBoth (by decide) hrun
  exact ⟨s, os, hrun, hs, l, hstack, hlinked⟩

end CppUtil.Lockfree
