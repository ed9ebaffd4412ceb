import CppUtil.DoubleBuffer.Replay

/-!
# Updaters that throw

`Update` has no rollback: when the updater throws, the buffer it was on keeps
the writes made so far. At first nobody sees them, but the next `Update` brings
that buffer to the readers. So a failed `Update` goes unnoticed exactly if it
leaves the two buffers equal (`failed_update_hidden_iff`).

The calls here are made one after another by one thread. `Buffers` is what they
do to the two values, and the runs of the machine follow it.
-/

namespace CppUtil.DoubleBuffer

open Lang Lib

attribute [local instance] neZero_two

variable {Tid T : Type}

-- ---------------------------------------------------------------------------
-- Two values
-- ---------------------------------------------------------------------------

/-- The buffer at `read_idx_` and the other one, while nobody is in a call. -/
@[ext] structure Buffers (T : Type) where
  read : T
  other : T

namespace Buffers

def update (u : Updater T) (b : Buffers T) : Buffers T := ⟨u.apply b.other, u.apply b.read⟩

/-- `Update` ends with an exception after `k` writes on its first or its second
buffer. -/
def fail (u : Updater T) (k : Nat) (b : Buffers T) : Half → Buffers T
  | .first => ⟨b.read, Updater.apply (u.take k) b.other⟩
  | .second => ⟨u.apply b.other, Updater.apply (u.take k) b.read⟩

/-- What the `Load` calls in a sequence of calls return. -/
def observe : List (Call T) → Buffers T → List T
  | [], _ => []
  | .load :: calls, b => b.read :: observe calls b
  | .update u :: calls, b => observe calls (b.update u)

/-- Two values that are the same stay so, and calls can tell others apart from
every pair of equal values. -/
theorem observe_eq_iff {b : Buffers T} {x y : T} (h : b.read = x ∨ b.read = y) :
    (∀ calls, b.observe calls = observe calls ⟨x, x⟩ ∨ b.observe calls = observe calls ⟨y, y⟩) ↔
      b.read = b.other := by
  constructor
  · intro hall
    rcases hall [.load, .update [], .load] with heq | heq <;>
      · simp only [observe, update, Updater.apply, List.foldl_nil, List.cons.injEq, and_true] at heq
        exact heq.1.trans heq.2.symm
  · intro heq calls
    have hb : ∀ z, b.read = z → b = ⟨z, z⟩ := fun z hz => Buffers.ext hz (heq.symm.trans hz)
    rcases h with hx | hy
    · exact .inl (congrArg _ (hb x hx))
    · exact .inr (congrArg _ (hb y hy))

end Buffers

-- ---------------------------------------------------------------------------
-- Calls of one thread
-- ---------------------------------------------------------------------------

variable {t : Tid} {sh : Shared Tid T} {u : Updater T} {i : Idx} {x y : T}

def alone (t : Tid) : Machine (Shared Tid T × Thread T) (Act T) (Event T) :=
  Machine.solo (fun t sh th => th.step t sh) t

structure Shared.Rests (sh : Shared Tid T) (b : Buffers T) : Prop where
  mutex : sh.writeMtx_ = none
  counts : ∀ j, sh.heap.useCount j = 1
  read : sh.heap.value sh.readIdx_ = some b.read
  other : sh.heap.value (1 - sh.readIdx_) = some b.other

/-- Thread `t` is on buffer `i`, which holds `x`; readers get `y`. -/
structure Shared.Writes (t : Tid) (i : Idx) (x y : T) (sh : Shared Tid T) : Prop where
  mutex : sh.writeMtx_ = some t
  index : sh.readIdx_ = 1 - i
  taken : sh.heap.useCount i = 2
  free : sh.heap.useCount (1 - i) = 1
  here : sh.heap.value i = some x
  there : sh.heap.value (1 - i) = some y

theorem acquire_release {heap : Heap Idx T} (h : ∀ j, heap.useCount j = 1) (i : Idx) :
    (heap.acquire (some i)).release (some i) = heap := by
  obtain ⟨useCount, value⟩ := heap
  simp only [Heap.acquire, Heap.release, Nat.add_sub_cancel, Heap.mk.injEq, true_and]
  funext j
  refine if_neg ?_
  rintro ⟨heq, hone⟩
  have hj : useCount j = 1 := h j
  rw [hj, heq, refs_self] at hone
  exact absurd hone (by decide)

theorem run_load (h : sh.Rests b) :
    (alone t).run (sh, ⟨[], .idle⟩) [.call .load, .next, .next, .drop sh.readIdx_] =
      some ((sh, ⟨[], .idle⟩), [.loaded sh.readIdx_ (some b.read)]) := by
  simp [Machine.run, alone, Machine.solo, Thread.step, Thread.next, Call.entry, h.read,
    acquire_release h.counts]

theorem run_start (h : sh.Rests b) (u : Updater T) :
    ∃ sh', (alone t).run (sh, ⟨[], .idle⟩) [.call (.update u), .next, .next, .next, .next] =
        some ((sh', ⟨[], .updating u .first (1 - sh.readIdx_) u⟩), []) ∧
      sh'.Writes t (1 - sh.readIdx_) b.other b.read := by
  have hne : some (1 - sh.readIdx_) ≠ some sh.readIdx_ := fun heq =>
    other_ne _ (Option.some.inj heq)
  refine ⟨{ sh with heap := (sh.heap.acquire (some (1 - sh.readIdx_))).release none,
                    writeMtx_ := some t }, ?_, rfl, ?_, ?_, ?_, ?_, ?_⟩
  · simp only [Machine.run, alone, Machine.solo, Thread.step, Thread.next, Call.entry, h.mutex,
      h.counts, Option.map_some, Option.bind_some, ↓reduceIte, List.append_nil]
  · rw [other_other]
  · simp [Heap.acquire, Heap.release, h.counts]
  · rw [other_other]
    simp [Heap.acquire, Heap.release, h.counts, refs_of_ne hne]
  · simpa [Heap.acquire, Heap.release] using h.other
  · rw [other_other]
    simpa [Heap.acquire, Heap.release] using h.read

theorem run_writes (h : sh.Writes t i x y) (u : Updater T) (half : Half) (ws rest : Updater T) :
    ∃ sh', (alone t).run (sh, ⟨[], .updating u half i (ws ++ rest)⟩)
        (List.replicate ws.length .next) = some ((sh', ⟨[], .updating u half i rest⟩), []) ∧
      sh'.Writes t i (Updater.apply ws x) y := by
  induction ws generalizing sh x with
  | nil => exact ⟨sh, rfl, h⟩
  | cons w ws ih =>
    have hone : Shared.Writes t i (w x) y { sh with heap := sh.heap.modify i w } := by
      refine ⟨h.mutex, h.index, h.taken, h.free, ?_, ?_⟩
      · exact (Heap.value_modify_self _ _).trans (by rw [h.here]; rfl)
      · exact (Heap.value_modify_of_ne _ _ (other_ne i)).trans h.there
    obtain ⟨sh', hrun, hwrites⟩ := ih hone
    refine ⟨sh', ?_, hwrites⟩
    rw [List.length_cons, List.replicate_succ]
    exact Machine.run_cons_iff.mpr ⟨_, _, _, rfl, hrun, rfl⟩

theorem run_swap (h : sh.Writes t i x y) :
    ∃ sh', (alone t).run (sh, ⟨[], .updating u .first i []⟩) (List.replicate 5 .next) =
        some ((sh', ⟨[], .updating u .second (1 - i) u⟩), [.swapped u]) ∧
      sh'.Writes t (1 - i) y x := by
  have hne : some i ≠ some (1 - i) := fun heq => other_ne _ (Option.some.inj heq).symm
  have htaken : ((sh.heap.acquire (some (1 - i))).release (some i)).useCount (1 - i) = 2 := by
    simp [Heap.acquire, Heap.release, h.free, refs_of_ne hne]
  have hfree : ((sh.heap.acquire (some (1 - i))).release (some i)).useCount i = 1 := by
    simp [Heap.acquire, Heap.release, h.taken, refs_of_ne hne.symm]
  refine ⟨{ sh with readIdx_ := 1 - sh.readIdx_,
                    heap := (sh.heap.acquire (some (1 - i))).release (some i) },
    ?_, h.mutex, by rw [h.index], htaken, ?_, ?_, ?_⟩
  · simp only [List.replicate, Machine.run, alone, Machine.solo, Thread.step, Thread.next, h.index,
      other_other, h.free, Option.map_some, Option.bind_some, ↓reduceIte, List.append_nil,
      List.nil_append]
  · rw [other_other]
    exact hfree
  · exact (Heap.value_release _ (by rw [htaken]; decide)).trans h.there
  · rw [other_other]
    exact (Heap.value_release _ (by rw [hfree]; decide)).trans h.here

theorem Shared.Writes.unlock (h : Shared.Writes t i x y sh) :
    ({ sh with heap := sh.heap.release (some i), writeMtx_ := none } : Shared Tid T).Rests ⟨y, x⟩ := by
  have hne : some i ≠ some (1 - i) := fun heq => other_ne _ (Option.some.inj heq).symm
  have hcounts : ∀ j, (sh.heap.release (some i)).useCount j = 1 := by
    intro j
    rcases eq_or_eq_other i j with rfl | rfl
    · simp [Heap.release, h.taken]
    · simp [Heap.release, h.free, refs_of_ne hne]
  have hvalue : ∀ j, (sh.heap.release (some i)).value j = sh.heap.value j := fun j =>
    Heap.value_release _ (by rw [hcounts]; decide)
  refine ⟨rfl, hcounts, ?_, ?_⟩
  · rw [hvalue, h.index]
    exact h.there
  · rw [hvalue, h.index, other_other]
    exact h.here

-- ---------------------------------------------------------------------------
-- Sequences of calls
-- ---------------------------------------------------------------------------

def firstActs (u : Updater T) (k : Nat) : List (Act T) :=
  [.call (.update u), .next, .next, .next, .next] ++ List.replicate k .next

def secondActs (u : Updater T) (k : Nat) : List (Act T) :=
  firstActs u u.length ++ List.replicate 5 .next ++ List.replicate k .next

def updateActs (u : Updater T) : List (Act T) := secondActs u u.length ++ [.next]

def failActs (u : Updater T) (k : Nat) : Half → List (Act T)
  | .first => firstActs u k ++ [.throw]
  | .second => secondActs u k ++ [.throw]

theorem run_firstActs (h : sh.Rests b) (u : Updater T) (hk : k ≤ u.length) :
    ∃ sh', (alone t).run (sh, ⟨[], .idle⟩) (firstActs u k) =
        some ((sh', ⟨[], .updating u .first (1 - sh.readIdx_) (u.drop k)⟩), []) ∧
      sh'.Writes t (1 - sh.readIdx_) (Updater.apply (u.take k) b.other) b.read := by
  obtain ⟨sh₁, hstart, hw⟩ := run_start (t := t) h u
  obtain ⟨sh₂, hwrites, hw₂⟩ := run_writes hw u .first (u.take k) (u.drop k)
  rw [List.take_append_drop, List.length_take, Nat.min_eq_left hk] at hwrites
  exact ⟨sh₂, Machine.run_append_iff.mpr ⟨_, _, _, hstart, hwrites, rfl⟩, hw₂⟩

theorem run_secondActs (h : sh.Rests b) (u : Updater T) (hk : k ≤ u.length) :
    ∃ sh', (alone t).run (sh, ⟨[], .idle⟩) (secondActs u k) =
        some ((sh', ⟨[], .updating u .second sh.readIdx_ (u.drop k)⟩), [.swapped u]) ∧
      sh'.Writes t sh.readIdx_ (Updater.apply (u.take k) b.read) (Updater.apply u b.other) := by
  obtain ⟨sh₁, hfirst, hw⟩ := run_firstActs (t := t) h u (Nat.le_refl u.length)
  rw [List.drop_length] at hfirst
  rw [List.take_length] at hw
  obtain ⟨sh₂, hswap, hw₂⟩ := run_swap (u := u) hw
  rw [other_other] at hswap hw₂
  obtain ⟨sh₃, hwrites, hw₃⟩ := run_writes hw₂ u .second (u.take k) (u.drop k)
  rw [List.take_append_drop, List.length_take, Nat.min_eq_left hk] at hwrites
  refine ⟨sh₃, Machine.run_append_iff.mpr ⟨_, _, _, Machine.run_append_iff.mpr
    ⟨_, _, _, hfirst, hswap, rfl⟩, hwrites, rfl⟩, hw₃⟩

theorem run_updateActs (h : sh.Rests b) (u : Updater T) :
    ∃ sh' es, (alone t).run (sh, ⟨[], .idle⟩) (updateActs u) = some ((sh', ⟨[], .idle⟩), es) ∧
      sh'.Rests (b.update u) ∧ sh'.readIdx_ = 1 - sh.readIdx_ ∧ es = [.swapped u, .updated u] := by
  obtain ⟨sh', hrun, hw⟩ := run_secondActs (t := t) h u (Nat.le_refl u.length)
  rw [List.drop_length] at hrun
  rw [List.take_length] at hw
  exact ⟨_, _, Machine.run_append_iff.mpr ⟨_, _, _, hrun, rfl, rfl⟩, hw.unlock, hw.index, rfl⟩

theorem run_failActs (h : sh.Rests b) (u : Updater T) (half : Half) (hk : k ≤ u.length) :
    ∃ sh' es, (alone t).run (sh, ⟨[], .idle⟩) (failActs u k half) = some ((sh', ⟨[], .idle⟩), es) ∧
      sh'.Rests (b.fail u k half) ∧ .thrown u ∈ es := by
  cases half with
  | first =>
    obtain ⟨sh', hrun, hw⟩ := run_firstActs (t := t) h u hk
    exact ⟨_, _, Machine.run_append_iff.mpr ⟨_, _, _, hrun, rfl, rfl⟩, hw.unlock, by simp⟩
  | second =>
    obtain ⟨sh', hrun, hw⟩ := run_secondActs (t := t) h u hk
    exact ⟨_, _, Machine.run_append_iff.mpr ⟨_, _, _, hrun, rfl, rfl⟩, hw.unlock, by simp⟩

def callsActs : Idx → List (Call T) → List (Act T)
  | _, [] => []
  | i, .load :: calls => [.call .load, .next, .next, .drop i] ++ callsActs i calls
  | i, .update u :: calls => updateActs u ++ callsActs (1 - i) calls

def Event.value? : Event T → Option (Option T)
  | .loaded _ v => some v
  | _ => none

theorem run_callsActs (h : sh.Rests b) (calls : List (Call T)) :
    ∃ sh' es, (alone t).run (sh, ⟨[], .idle⟩) (callsActs sh.readIdx_ calls) =
        some ((sh', ⟨[], .idle⟩), es) ∧ es.filterMap Event.value? = (b.observe calls).map some := by
  induction calls generalizing sh b with
  | nil => exact ⟨sh, [], rfl, rfl⟩
  | cons c calls ih =>
    cases c with
    | load =>
      obtain ⟨sh', es, hrun, hes⟩ := ih h
      refine ⟨sh', _, Machine.run_append_iff.mpr ⟨_, _, _, run_load h, hrun, rfl⟩, ?_⟩
      exact congrArg (some b.read :: ·) hes
    | update u =>
      obtain ⟨sh₁, es₁, hupdate, hrests, hread, rfl⟩ := run_updateActs (t := t) h u
      obtain ⟨sh', es, hrun, hes⟩ := ih hrests
      rw [hread] at hrun
      exact ⟨sh', _, Machine.run_append_iff.mpr ⟨_, _, _, hupdate, hrun, rfl⟩, hes⟩

-- ---------------------------------------------------------------------------
-- Failed updates
-- ---------------------------------------------------------------------------

section

variable [DecidableEq Tid] {s : State Tid T}

def byThread (t : Tid) (as : List (Act T)) : List (Tid × Act T) := as.map fun act => (t, act)

/-- What the `Load` calls of a sequence return, when thread `t` makes the calls
and no other thread does anything. -/
def returned (t : Tid) (s : State Tid T) (calls : List (Call T)) : Option (List (Option T)) :=
  ((machine Tid T).run s (byThread t (callsActs s.shared.readIdx_ calls))).map fun r =>
    r.2.filterMap fun x => x.2.value?

theorem run_alone (hidle : s.threads t = ⟨[], .idle⟩)
    (h : (alone t).run (s.shared, ⟨[], .idle⟩) as = some ((sh, ⟨[], .idle⟩), es)) :
    (machine Tid T).run s (byThread t as) = some (⟨sh, s.threads⟩, es.map fun e => (t, e)) := by
  rw [← hidle] at h
  have hrun := Machine.run_of_solo h
  rwa [Function.update_eq_self] at hrun

theorem returned_eq (hidle : s.threads t = ⟨[], .idle⟩) (h : s.shared.Rests b)
    (calls : List (Call T)) : returned t s calls = some ((b.observe calls).map some) := by
  obtain ⟨sh', es, hrun, hes⟩ := run_callsActs (t := t) h calls
  rw [returned, run_alone hidle hrun, Option.map_some, List.filterMap_map, ← hes]
  rfl

omit [DecidableEq Tid] in
theorem Shared.Rests.values_eq_iff (h : sh.Rests b) :
    sh.heap.value 0 = sh.heap.value 1 ↔ b.read = b.other := by
  have hboth : sh.heap.value sh.readIdx_ = sh.heap.value (1 - sh.readIdx_) ↔ b.read = b.other := by
    rw [h.read, h.other, Option.some.injEq]
  rcases eq_or_eq_other 0 sh.readIdx_ with hread | hread
  · rwa [hread] at hboth
  · rw [hread] at hboth
    exact eq_comm.trans hboth

/-- An `Update` on equal buffers ends with an exception, and calls follow. They
see what they would see without the `Update`, or after all of it, exactly if
the buffers are equal then. That is so if the writes before the exception
change nothing, in the first half, or are all that the updater does, in the
second. -/
theorem failed_update_hidden_iff (hidle : s.threads t = ⟨[], .idle⟩) (h : s.shared.Rests ⟨v, v⟩)
    (u : Updater T) (half : Half) (hk : k ≤ u.length) :
    ∃ s₁ os₁ s₂ os₂,
      (machine Tid T).run s (byThread t (failActs u k half)) = some (s₁, os₁) ∧
      (t, .thrown u) ∈ os₁ ∧
      (machine Tid T).run s (byThread t (updateActs u)) = some (s₂, os₂) ∧
      (∀ calls, (returned t s₁ calls).isSome) ∧
      ((∀ calls, returned t s₁ calls = returned t s calls ∨
          returned t s₁ calls = returned t s₂ calls) ↔
        s₁.shared.heap.value 0 = s₁.shared.heap.value 1) ∧
      (s₁.shared.heap.value 0 = s₁.shared.heap.value 1 ↔
        Updater.apply (u.take k) v = if half = .first then v else Updater.apply u v) := by
  obtain ⟨sh₁, es₁, hfail, hrests₁, hthrown⟩ := run_failActs (t := t) h u half hk
  obtain ⟨sh₂, es₂, hupdate, hrests₂, -, -⟩ := run_updateActs (t := t) h u
  refine ⟨⟨sh₁, s.threads⟩, _, ⟨sh₂, s.threads⟩, _, run_alone hidle hfail,
    List.mem_map_of_mem hthrown, run_alone hidle hupdate, fun calls => ?_, ?_, ?_⟩
  · rw [returned_eq (s := ⟨sh₁, s.threads⟩) hidle hrests₁]
    rfl
  · have hread : (Buffers.fail u k ⟨v, v⟩ half).read = v ∨
        (Buffers.fail u k ⟨v, v⟩ half).read = Updater.apply u v := by
      cases half with
      | first => exact .inl rfl
      | second => exact .inr rfl
    have hinj : ∀ l l' : List T, some (l.map some) = some (l'.map some) ↔ l = l' := fun l l' =>
      Option.some_inj.trans (List.map_inj_right fun _ _ => Option.some.inj)
    rw [hrests₁.values_eq_iff, ← Buffers.observe_eq_iff hread]
    simp only [returned_eq hidle h, returned_eq (s := ⟨sh₁, s.threads⟩) hidle hrests₁,
      returned_eq (s := ⟨sh₂, s.threads⟩) hidle hrests₂, hinj, Buffers.update]
  · rw [hrests₁.values_eq_iff]
    cases half with
    | first => exact eq_comm
    | second => exact eq_comm

end

theorem init_rests (data : T) : (State.init data : State Tid T).shared.Rests ⟨data, data⟩ :=
  ⟨rfl, fun _ => rfl, rfl, rfl⟩

theorem failed_update_hidden_unwritten : ∃ s₁ os₁ s₂ os₂,
    (machine Unit Nat).run (State.init 5) (byThread () (failActs [(· + 1)] 0 .first)) =
      some (s₁, os₁) ∧
    (machine Unit Nat).run (State.init 5) (byThread () (updateActs [(· + 1)])) = some (s₂, os₂) ∧
    ∀ calls, returned () s₁ calls = returned () (State.init 5) calls ∨
      returned () s₁ calls = returned () s₂ calls := by
  obtain ⟨s₁, os₁, s₂, os₂, hfail, -, hupdate, -, hhidden, hequal⟩ :=
    failed_update_hidden_iff (s := State.init 5) (t := ()) rfl (init_rests 5) [(· + 1)] .first
      (Nat.zero_le _)
  exact ⟨s₁, os₁, s₂, os₂, hfail, hupdate, hhidden.mpr (hequal.mpr rfl)⟩

/-- A value that is increased twice, and an exception in between: the next
`Update`, which does nothing, shows the value of half of it. -/
theorem failed_update_seen :
    let u : Updater Nat := [(· + 1), (· + 1)]
    let calls : List (Call Nat) := [.load, .update [], .load]
    (∀ half ∈ [Half.first, .second], ((machine Unit Nat).run (State.init 5)
        (byThread () (failActs u 1 half))).map (fun r => returned () r.1 calls) =
      some (some (if half = .first then [some 5, some 6] else [some 7, some 6]))) ∧
    returned () (State.init 5) calls = some [some 5, some 5] ∧
    ((machine Unit Nat).run (State.init 5) (byThread () (updateActs u))).map
      (fun r => returned () r.1 calls) = some (some [some 7, some 7]) := by
  decide +kernel

end CppUtil.DoubleBuffer
