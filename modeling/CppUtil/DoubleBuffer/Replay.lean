import CppUtil.DoubleBuffer.Exclusion

/-!
# Both buffers follow the updates

With updaters that do not throw, the buffer that readers are sent to is the
initial data after the updates that were swapped in, in the order in which
their writers got the mutex. The other buffer is behind or ahead by the update
in progress: `Frame.Owes` says, for each place in `Update`, which of its writes
are still to be made there. When nobody holds the mutex the buffers are equal.
-/

namespace CppUtil.DoubleBuffer

open Lang Lib

attribute [local instance] neZero_two

variable {Tid T : Type}

def Updater.apply (u : Updater T) (x : T) : T := u.foldl (fun x write => write x) x

def applyAll (us : List (Updater T)) (x : T) : T := us.foldl (fun x u => Updater.apply u x) x

def Event.swap : Event T → Option (Updater T)
  | .swapped u => some u
  | _ => none

def swapped (os : List (Tid × Event T)) : List (Updater T) := os.filterMap fun x => x.2.swap

theorem swapped_append (os : List (Tid × Event T)) (t : Tid) (es : List (Event T)) :
    swapped (os ++ es.map fun e => (t, e)) = swapped os ++ es.filterMap Event.swap := by
  simp [swapped, List.filterMap_map]

def Frame.locks : Frame T → Act T → List (Updater T)
  | .locking u, .next => [u]
  | _, _ => []

def locks (s : State Tid T) (x : Tid × Act T) : List (Updater T) := (s.threads x.1).frame.locks x.2

-- ---------------------------------------------------------------------------
-- One update
-- ---------------------------------------------------------------------------

def Frame.unswapped : Frame T → List (Updater T)
  | .choosing u .first _ | .checking u .first _ _ | .taking u .first _ _ | .updating u .first _ _
  | .swapping u _ => [u]
  | _ => []

/-- `x` is in the buffer that is not read, when the other one holds `base`. -/
def Frame.Owes (base : T) : Frame T → T → Prop
  | .updating u .first _ rest, x => Updater.apply rest x = Updater.apply u base
  | .swapping u _, x => x = Updater.apply u base
  | .choosing u .second _, x | .checking u .second _ _, x | .taking u .second _ _, x =>
    Updater.apply u x = base
  | .updating _ .second _ rest, x => Updater.apply rest x = base
  | .idle, x | .loading, x | .copying _, x | .locking _, x | .choosing _ .first _, x
  | .checking _ .first _ _, x | .taking _ .first _ _, x => x = base

structure Shared.Holds (sh : Shared Tid T) (fr : Frame T) (base : T) : Prop where
  read : sh.heap.value sh.readIdx_ = some base
  other : ∃ x, sh.heap.value (1 - sh.readIdx_) = some x ∧ fr.Owes base x

theorem other_other (i : Idx) : 1 - (1 - i) = i := by
  revert i
  decide

theorem eq_or_eq_other (i b : Idx) : b = i ∨ b = 1 - i := by
  revert i b
  decide

variable {t : Tid} {sh sh' : Shared Tid T} {th th' : Thread T} {r : Idx → Nat} {base : T}

theorem Shared.Holds.congr (h : sh.Holds fr base) (hvalue : sh'.heap.value = sh.heap.value)
    (hread : sh'.readIdx_ = sh.readIdx_) (howes : ∀ x, fr.Owes base x → fr'.Owes base x) :
    sh'.Holds fr' base := by
  obtain ⟨hbase, x, hx, hfr⟩ := h
  exact ⟨by rw [hvalue, hread, hbase], x, by rw [hvalue, hread, hx], howes x hfr⟩

theorem value_release_eq {heap : Heap Idx T} (h : (heap.release p).Counts (th.uses r)) :
    (heap.release p).value = heap.value :=
  funext fun _ => h.value_release Thread.uses_pos

theorem Shared.Holds.modify {f : T → T} (h : sh.Holds fr base)
    (howes : ∀ x, fr.Owes base x → fr'.Owes base (f x)) :
    Shared.Holds { sh with heap := sh.heap.modify (1 - sh.readIdx_) f } fr' base := by
  obtain ⟨hbase, x, hx, hfr⟩ := h
  refine ⟨?_, f x, ?_, howes x hfr⟩
  · exact (Heap.value_modify_of_ne _ _ (other_ne _).symm).trans hbase
  · exact (Heap.value_modify_self _ _).trans (by rw [hx]; rfl)

/-- After the swap the buffer that was read is the one that lacks the update. -/
theorem Shared.Holds.swap (h : sh.Holds (.swapping u i) base) :
    Shared.Holds { sh with readIdx_ := 1 - sh.readIdx_ } (.choosing u .second (some i))
      (Updater.apply u base) := by
  obtain ⟨hbase, x, hx, rfl⟩ := h
  exact ⟨hx, base, by rw [other_other, hbase], rfl⟩

/-- A step of a thread when no other thread has the mutex: its frame tells how
the buffers stand, before the step and after it. -/
structure Thread.Replays (t : Tid) (th : Thread T) (act : Act T) (base : T) (sh' : Shared Tid T)
    (th' : Thread T) (o : List (Event T)) : Prop where
  mutex : sh'.writeMtx_ = none ∨ sh'.writeMtx_ = some t
  holds : sh'.Holds th'.frame (applyAll (o.filterMap Event.swap) base)
  order : th.frame.unswapped ++ th.frame.locks act =
    o.filterMap Event.swap ++ th'.frame.unswapped

theorem Thread.next_replays (h : th.Ok t sh r) (hs : th.next t sh = some (sh', th', o))
    (hm : sh.writeMtx_ = none ∨ sh.writeMtx_ = some t) (hh : sh.Holds th.frame base) :
    th.Replays t .next base sh' th' o := by
  have hcounts := (Thread.next_moves h hs).ok.counts
  have hok := h.frame
  unfold Thread.next at hs
  cases hfr : th.frame with
  | idle =>
    rw [hfr] at hs
    cases hs
  | loading | copying =>
    rw [hfr] at hs hh
    cases hs
    exact ⟨hm, hh.congr rfl rfl fun _ => id, by rw [hfr]; rfl⟩
  | locking u =>
    rw [hfr] at hs hh
    simp only [Option.ite_none_right_eq_some] at hs
    obtain ⟨-, ⟨⟩⟩ := hs
    exact ⟨.inr rfl, hh.congr rfl rfl fun _ => id, by rw [hfr]; rfl⟩
  | choosing u half wb =>
    rw [hfr] at hs hh
    cases hs
    cases half with
    | first | second => exact ⟨hm, hh.congr rfl rfl fun _ => id, by rw [hfr]; rfl⟩
  | checking u half wb i =>
    rw [hfr] at hs
    dsimp only at hs
    split at hs
    · cases hs
      rw [hfr] at hh
      cases half with
      | first | second => exact ⟨hm, hh.congr rfl rfl fun _ => id, by rw [hfr]; rfl⟩
    · cases hs
      exact ⟨hm, hh, by rw [hfr]; exact List.append_nil _⟩
  | taking u half wb i =>
    rw [hfr] at hs hh
    cases hs
    have hvalue := value_release_eq hcounts
    cases half with
    | first =>
      refine ⟨hm, hh.congr hvalue rfl ?_, by rw [hfr]; rfl⟩
      rintro x rfl
      rfl
    | second => exact ⟨hm, hh.congr hvalue rfl fun _ => id, by rw [hfr]; rfl⟩
  | updating u half i rest =>
    rw [hfr] at hs hh hok
    cases rest with
    | cons write rest =>
      cases hs
      obtain ⟨-, rfl⟩ := hok
      cases half with
      | first | second => exact ⟨hm, hh.modify fun _ => id, by rw [hfr]; rfl⟩
    | nil =>
      cases half with
      | first =>
        cases hs
        exact ⟨hm, hh.congr rfl rfl fun _ => id, by rw [hfr]; rfl⟩
      | second =>
        cases hs
        exact ⟨.inl rfl, hh.congr (value_release_eq hcounts) rfl fun _ => id, by rw [hfr]; rfl⟩
  | swapping u i =>
    rw [hfr] at hs hh
    cases hs
    exact ⟨hm, hh.swap, by rw [hfr]; rfl⟩

theorem Thread.step_replays (h : th.Ok t sh r) (hs : th.step t sh act = some (sh', th', o))
    (hact : act ≠ .throw) (hm : sh.writeMtx_ = none ∨ sh.writeMtx_ = some t)
    (hh : sh.Holds th.frame base) : th.Replays t act base sh' th' o := by
  cases act with
  | next => exact Thread.next_replays h hs hm hh
  | call c =>
    unfold Thread.step at hs
    cases hfr : th.frame <;> rw [hfr] at hs <;> cases hs
    rw [hfr] at hh
    cases c with
    | load | update => exact ⟨hm, hh.congr rfl rfl fun _ => id, by rw [hfr]; rfl⟩
  | drop i =>
    have hcounts := (Thread.step_moves h hs).ok.counts
    simp only [Thread.step, Option.ite_none_right_eq_some] at hs
    obtain ⟨-, ⟨⟩⟩ := hs
    exact ⟨hm, hh.congr (value_release_eq hcounts) rfl fun _ => id, by simp [Frame.locks]⟩
  | throw => exact absurd rfl hact

-- ---------------------------------------------------------------------------
-- The threads that are not writing
-- ---------------------------------------------------------------------------

theorem Frame.Ok.outside {fr : Frame T} (h : fr.Ok t sh) (hm : sh.writeMtx_ ≠ some t) :
    fr.target = none ∧ fr.unswapped = [] ∧ ∀ base x, fr.Owes base x ↔ x = base := by
  cases fr with
  | idle | loading | copying | locking => exact ⟨rfl, rfl, fun _ _ => Iff.rfl⟩
  | choosing => exact absurd h hm
  | checking | taking | updating | swapping => exact absurd h.1 hm

theorem Thread.step_outside (h : th.Ok t sh r) (hs : th.step t sh act = some (sh', th', o))
    (hm : sh.writeMtx_ = some w) (hw : w ≠ t) :
    o.filterMap Event.swap = [] ∧ th.frame.locks act = [] := by
  have hne : sh.writeMtx_ ≠ some t := by
    rw [hm]
    exact fun h => hw (Option.some.inj h)
  have hok := h.frame
  cases act with
  | call c =>
    unfold Thread.step at hs
    cases hfr : th.frame <;> rw [hfr] at hs <;> cases hs
    exact ⟨rfl, rfl⟩
  | drop i =>
    simp only [Thread.step, Option.ite_none_right_eq_some] at hs
    obtain ⟨-, ⟨⟩⟩ := hs
    exact ⟨rfl, by simp [Frame.locks]⟩
  | next =>
    unfold Thread.step Thread.next at hs
    cases hfr : th.frame with
    | idle =>
      rw [hfr] at hs
      cases hs
    | loading | copying =>
      rw [hfr] at hs
      cases hs
      exact ⟨rfl, rfl⟩
    | locking u => simp [hfr, hm] at hs
    | choosing =>
      rw [hfr] at hok
      exact absurd hok hne
    | checking | taking | updating | swapping =>
      rw [hfr] at hok
      exact absurd hok.1 hne
  | throw =>
    unfold Thread.step at hs
    cases hfr : th.frame <;> rw [hfr] at hs hok <;> cases hs
    exact absurd hok.1 hne

-- ---------------------------------------------------------------------------
-- Whole runs
-- ---------------------------------------------------------------------------

section

variable [DecidableEq Tid] [Fintype Tid] {s s' : State Tid T}

/-- Where the thread that has the mutex stands. -/
def State.writer (s : State Tid T) : Frame T :=
  match s.shared.writeMtx_ with
  | some w => (s.threads w).frame
  | none => .idle

/-- `locked` are the updates in the order in which they got the mutex. -/
structure State.Replayed (data : T) (locked : List (Updater T)) (os : List (Tid × Event T))
    (s : State Tid T) : Prop where
  ok : s.Ok
  order : locked = swapped os ++ s.writer.unswapped
  holds : s.shared.Holds s.writer (applyAll (swapped os) data)

theorem State.Ok.writer (h : s.Ok)
    (hm : s.shared.writeMtx_ = none ∨ s.shared.writeMtx_ = some t) :
    s.writer.unswapped = (s.threads t).frame.unswapped ∧
      ∀ base x, s.writer.Owes base x ↔ (s.threads t).frame.Owes base x := by
  rcases hm with hm | hm
  · obtain ⟨-, hswap, howes⟩ := (h t).frame.outside (by rw [hm]; simp)
    simp only [State.writer, hm, hswap, howes]
    exact ⟨rfl, fun _ _ => Iff.rfl⟩
  · simp [State.writer, hm]

theorem State.Replayed.step {x : Tid × Act T} (h : s.Replayed data locked os)
    (hact : x.2 ≠ .throw) (hs : (machine Tid T).step s x = some (s', o)) :
    s'.Replayed data (locked ++ locks s x) (os ++ o) := by
  obtain ⟨t, act⟩ := x
  obtain ⟨sh, th, es, hstep, rfl, rfl⟩ := Machine.interleave_step_iff.mp hs
  have hm := Thread.step_moves (h.ok t) hstep
  have hok := h.ok.moves hm
  by_cases hopen : s.shared.writeMtx_ = none ∨ s.shared.writeMtx_ = some t
  · obtain ⟨hunswapped, howes⟩ := h.ok.writer hopen
    have hr := Thread.step_replays (h.ok t) hstep hact hopen
      (h.holds.congr rfl rfl fun x => (howes _ x).mp)
    obtain ⟨hunswapped', howes'⟩ := hok.writer hr.mutex
    simp only [Function.update_self] at hunswapped' howes'
    refine ⟨hok, ?_, ?_⟩
    · rw [swapped_append, hunswapped', h.order, hunswapped, List.append_assoc, List.append_assoc]
      exact congrArg _ hr.order
    · rw [swapped_append, applyAll, List.foldl_append]
      exact hr.holds.congr rfl rfl fun x => (howes' _ x).mpr
  · rw [not_or] at hopen
    obtain ⟨w, hw⟩ := Option.ne_none_iff_exists'.mp hopen.1
    have hwt : w ≠ t := by
      rintro rfl
      exact hopen.2 hw
    obtain ⟨hswaps, hlocks⟩ := Thread.step_outside (h.ok t) hstep hw hwt
    obtain ⟨hw', hread⟩ := hm.excludes w hwt hw
    have hvalue : sh.heap.value = s.shared.heap.value :=
      funext fun b => hm.keeps b (by simp [((h.ok t).frame.outside hopen.2).1])
    have hwriter : State.writer ⟨sh, Function.update s.threads t th⟩ = s.writer := by
      simp only [State.writer, hw, hw', Function.update_of_ne hwt]
    refine ⟨hok, ?_, ?_⟩
    · rw [swapped_append, hswaps, hwriter, locks, hlocks, List.append_nil, List.append_nil]
      exact h.order
    · rw [swapped_append, hswaps, hwriter, List.append_nil]
      exact h.holds.congr hvalue hread fun _ => id

theorem State.init_replayed (data : T) : (State.init data : State Tid T).Replayed data [] [] where
  ok := State.init_ok data
  order := rfl
  holds := ⟨rfl, data, rfl, rfl⟩

/-- The buffer that readers are sent to holds the initial data after the first
`k` updates in lock order, where `k` is the number of swaps so far; and when
nobody has the mutex all updates have been swapped in and both buffers hold
that value. -/
theorem buffers_replay_updates (data : T) (hpure : ∀ x ∈ as, x.2 ≠ .throw)
    (h : (machine Tid T).run (State.init data) as = some (s, os)) :
    let locked := (machine Tid T).observed locks (State.init data) as
    let current := applyAll (locked.take (swapped os).length) data
    s.shared.heap.value s.shared.readIdx_ = some current ∧
      (s.shared.writeMtx_ = none →
        locked = swapped os ∧ ∀ b, s.shared.heap.value b = some current) := by
  intro locked current
  have hr : s.Replayed data locked os :=
    @Machine.run_keeps_observed _ _ _ (machine Tid T) [] _ _ _ _ _ [] locks (fun _ x => x.2 ≠ .throw)
      (fun locked os s => s.Replayed data locked os) (fun _ _ _ _ _ _ h hx hs => h.step hx hs)
      (State.init_replayed data) (Machine.Meets.of_forall hpure) h
  have hcurrent : current = applyAll (swapped os) data := by
    simp only [current, hr.order, List.take_left']
  refine ⟨hcurrent ▸ hr.holds.read, fun hm => ?_⟩
  obtain ⟨x, hx, howes⟩ := hr.holds.other
  have horder := hr.order
  rw [State.writer, hm] at horder howes
  refine ⟨by simpa [Frame.unswapped] using horder, fun b => ?_⟩
  rw [hcurrent]
  rcases eq_or_eq_other s.shared.readIdx_ b with rfl | rfl
  · exact hr.holds.read
  · exact hx.trans (congrArg some howes)

end

def twoUpdates : List (Fin 2 × Act Nat) :=
  [(0, .call .load), (0, .next), (1, .call (.reset 9)), (1, .next), (0, .next), (0, .drop 0),
    (0, .call (.update [(· + 1)]))] ++ List.replicate 11 (1, .next) ++ List.replicate 12 (0, .next)

theorem buffers_replay_updates_twoUpdates :
    ∃ s os, (machine (Fin 2) Nat).run (State.init 5) twoUpdates = some (s, os) ∧
      (swapped os).length = 2 ∧ ∀ b, s.shared.heap.value b = some 10 := by
  have h : ((machine (Fin 2) Nat).run (State.init 5) twoUpdates).map
      (fun r => ((swapped r.2).length, r.1.shared.writeMtx_)) = some (2, none) := by decide +kernel
  obtain ⟨⟨s, os⟩, hrun, hs⟩ := Option.map_eq_some_iff.mp h
  simp only [Prod.mk.injEq] at hs
  obtain ⟨hswapped, hmutex⟩ := hs
  obtain ⟨-, hvalues⟩ := (buffers_replay_updates 5 (by simp [twoUpdates]) hrun).2 hmutex
  refine ⟨s, os, hrun, hswapped, fun b => (hvalues b).trans ?_⟩
  rw [hswapped]
  decide +kernel

end CppUtil.DoubleBuffer
