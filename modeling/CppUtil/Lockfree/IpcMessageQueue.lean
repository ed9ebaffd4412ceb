import CppUtil.Lang.Numeric
import CppUtil.Lib.Machine

/-!
# `IpcMessageQueue::SharedMemory`

A thread looks a key up in a map of its own, and only if it is not there in the
central map, under a mutex. A key that is in neither gets a new object, which
goes to both maps.

Nothing is ever taken out of the central map, so an object lives on and is told
from others by the number of its creation. A thread that ends takes its map
with it.
-/

namespace CppUtil.Lockfree.IpcMessageQueue

open Lang Lib

abbrev Key := Str

/-- A `RingBufferSharedMemory`, by the number of its creation. -/
abbrev Obj := Nat

inductive Frame
  | idle
  | finding (key : Key)
  | locking (key : Key)
  | searching (key : Key)
  | creating (key : Key)
  | publishing (key : Key) (sptr : Obj)
  | caching (key : Key) (sptr : Obj)
  | unlocking (key : Key) (sptr : Obj)

structure Thread where
  localSharedMemoryMap : Key → Option Obj
  frame : Frame

structure Shared (Tid : Type) where
  centralSharedMemoryMap_ : Key → Option Obj
  centralSharedMemoryMapMutex_ : Option Tid
  /-- The keys of the objects that were created, in order. -/
  created : List Key

inductive Event
  | returned (key : Key) (sptr : Obj)
  deriving DecidableEq

/-- A thread enters a call, takes its next step, has `make_shared` throw, or
ends. -/
inductive Act
  | call (key : Key)
  | next
  | throw
  | exit

variable {Tid : Type}

def Thread.next (t : Tid) (sh : Shared Tid) (th : Thread) :
    Option (Shared Tid × Thread × List Event) :=
  match th.frame with
  | .idle => none
  | .finding key =>
    match th.localSharedMemoryMap key with
    | some sptr => some (sh, { th with frame := .idle }, [.returned key sptr])
    | none => some (sh, { th with frame := .locking key }, [])
  | .locking key =>
    if sh.centralSharedMemoryMapMutex_ = none then
      some ({ sh with centralSharedMemoryMapMutex_ := some t },
        { th with frame := .searching key }, [])
    else none
  | .searching key =>
    match sh.centralSharedMemoryMap_ key with
    | some sptr => some (sh, { th with frame := .caching key sptr }, [])
    | none => some (sh, { th with frame := .creating key }, [])
  | .creating key =>
    some ({ sh with created := sh.created ++ [key] },
      { th with frame := .publishing key sh.created.length }, [])
  | .publishing key sptr =>
    some ({ sh with
        centralSharedMemoryMap_ := Function.update sh.centralSharedMemoryMap_ key (some sptr) },
      { th with frame := .caching key sptr }, [])
  | .caching key sptr =>
    some (sh, ⟨Function.update th.localSharedMemoryMap key (some sptr), .unlocking key sptr⟩, [])
  | .unlocking key sptr =>
    some ({ sh with centralSharedMemoryMapMutex_ := none }, { th with frame := .idle },
      [.returned key sptr])

def Thread.step (t : Tid) (sh : Shared Tid) (th : Thread) :
    Act → Option (Shared Tid × Thread × List Event)
  | .call key =>
    match th.frame with
    | .idle => some (sh, { th with frame := .finding key }, [])
    | _ => none
  | .next => th.next t sh
  | .throw =>
    match th.frame with
    | .creating _ =>
      some ({ sh with centralSharedMemoryMapMutex_ := none }, { th with frame := .idle }, [])
    | _ => none
  | .exit =>
    match th.frame with
    | .idle => some (sh, ⟨fun _ => none, .idle⟩, [])
    | _ => none

abbrev State (Tid : Type) := Config Tid (Shared Tid) Thread

def machine (Tid : Type) [DecidableEq Tid] : Machine (State Tid) (Tid × Act) (Tid × Event) :=
  .interleave Thread.step

def State.init : State Tid where
  shared := ⟨fun _ => none, none, []⟩
  threads _ := ⟨fun _ => none, .idle⟩

-- ---------------------------------------------------------------------------
-- One step
-- ---------------------------------------------------------------------------

def Frame.Ok (t : Tid) (sh : Shared Tid) : Frame → Prop
  | .idle | .finding _ | .locking _ => True
  | .searching _ => sh.centralSharedMemoryMapMutex_ = some t
  | .creating key =>
    sh.centralSharedMemoryMapMutex_ = some t ∧ sh.centralSharedMemoryMap_ key = none
  | .publishing key sptr =>
    sh.centralSharedMemoryMapMutex_ = some t ∧ sh.centralSharedMemoryMap_ key = none ∧
      sh.created[sptr]? = some key
  | .caching key sptr | .unlocking key sptr =>
    sh.centralSharedMemoryMapMutex_ = some t ∧ sh.centralSharedMemoryMap_ key = some sptr

def Frame.unpublished : Frame → Option (Key × Obj)
  | .publishing key sptr => some (key, sptr)
  | _ => none

structure Thread.Ok (t : Tid) (sh : Shared Tid) (th : Thread) : Prop where
  subMap : ∀ key sptr, th.localSharedMemoryMap key = some sptr →
    sh.centralSharedMemoryMap_ key = some sptr
  frame : th.frame.Ok t sh

structure Thread.Moves (t : Tid) (sh : Shared Tid) (th : Thread) (sh' : Shared Tid) (th' : Thread)
    (o : List Event) : Prop where
  ok : th'.Ok t sh'
  grows : ∀ key sptr, sh.centralSharedMemoryMap_ key = some sptr →
    sh'.centralSharedMemoryMap_ key = some sptr
  stems : ∀ key sptr, sh'.centralSharedMemoryMap_ key = some sptr →
    sh.centralSharedMemoryMap_ key = some sptr ∨ th.frame.unpublished = some (key, sptr)
  settles : ∀ key sptr, th.frame.unpublished = some (key, sptr) →
    sh'.centralSharedMemoryMap_ key = some sptr
  creates : sh'.created = sh.created ∨ ∃ key, th.frame = .creating key ∧
    sh'.created = sh.created ++ [key] ∧ th'.frame.unpublished = some (key, sh.created.length)
  excludes : ∀ u, u ≠ t → sh.centralSharedMemoryMapMutex_ = some u →
    sh'.centralSharedMemoryMapMutex_ = some u ∧
      sh'.centralSharedMemoryMap_ = sh.centralSharedMemoryMap_ ∧ sh'.created = sh.created
  returns : ∀ key sptr, .returned key sptr ∈ o → sh'.centralSharedMemoryMap_ key = some sptr

variable {t : Tid} {sh sh' : Shared Tid} {th th' : Thread}

theorem Thread.moves_frame (hcentral : sh'.centralSharedMemoryMap_ = sh.centralSharedMemoryMap_)
    (hcreated : sh'.created = sh.created) (hun : th.frame.unpublished = none)
    (hmap : ∀ key sptr, th'.localSharedMemoryMap key = some sptr →
      sh.centralSharedMemoryMap_ key = some sptr)
    (hframe : th'.frame.Ok t sh')
    (hexcl : ∀ u, u ≠ t → sh.centralSharedMemoryMapMutex_ = some u →
      sh'.centralSharedMemoryMapMutex_ = some u)
    (ho : ∀ key sptr, .returned key sptr ∈ o → sh.centralSharedMemoryMap_ key = some sptr) :
    th.Moves t sh sh' th' o where
  ok := ⟨by simpa only [hcentral] using hmap, hframe⟩
  grows _ _ h := by rw [hcentral, h]
  stems _ _ h := .inl (by rw [← hcentral, h])
  settles _ _ h := by rw [hun] at h; cases h
  creates := .inl hcreated
  excludes u hu hm := ⟨hexcl u hu hm, hcentral, hcreated⟩
  returns := by simpa only [hcentral] using ho

theorem Thread.moves_local (h : th.Ok t sh) (hun : th.frame.unpublished = none)
    (hframe : fr.Ok t sh) : th.Moves t sh sh { th with frame := fr } [] :=
  Thread.moves_frame rfl rfl hun h.subMap hframe (fun _ _ hm => hm) (by simp)

theorem Thread.moves_creating (h : th.Ok t sh) (hfr : th.frame = .creating key) :
    th.Moves t sh { sh with created := sh.created ++ [key] }
      { th with frame := .publishing key sh.created.length } [] := by
  have hok := h.frame
  rw [hfr] at hok
  exact {
    ok := ⟨h.subMap, hok.1, hok.2, by simp⟩
    grows := fun _ _ h => h
    stems := fun _ _ h => .inl h
    settles := by simp [hfr, Frame.unpublished]
    creates := .inr ⟨key, hfr, rfl, rfl⟩
    excludes := fun u hu hm => absurd (Option.some.inj (hm.symm.trans hok.1)) hu
    returns := by simp }

theorem Thread.moves_publishing (h : th.Ok t sh) (hfr : th.frame = .publishing key sptr) :
    th.Moves t sh
      { sh with
        centralSharedMemoryMap_ := Function.update sh.centralSharedMemoryMap_ key (some sptr) }
      { th with frame := .caching key sptr } [] := by
  have hok := h.frame
  rw [hfr] at hok
  have hgrows : ∀ k p, sh.centralSharedMemoryMap_ k = some p →
      Function.update sh.centralSharedMemoryMap_ key (some sptr) k = some p := by
    intro k p hk
    rw [Function.update_of_ne, hk]
    rintro rfl
    rw [hok.2.1] at hk
    cases hk
  refine
    { ok := ⟨fun k p hk => hgrows k p (h.subMap k p hk), hok.1, Function.update_self ..⟩
      grows := hgrows
      stems := fun k p hk => ?_
      settles := fun k p hk => ?_
      creates := .inl rfl
      excludes := fun u hu hm => absurd (Option.some.inj (hm.symm.trans hok.1)) hu
      returns := by simp }
  · by_cases hkey : k = key
    · subst hkey
      simp only [Function.update_self] at hk
      cases hk
      exact .inr (by rw [hfr]; rfl)
    · simp only [Function.update_of_ne hkey] at hk
      exact .inl hk
  · rw [hfr] at hk
    cases hk
    exact Function.update_self ..

theorem Thread.moves_caching (h : th.Ok t sh) (hfr : th.frame = .caching key sptr) :
    th.Moves t sh sh
      ⟨Function.update th.localSharedMemoryMap key (some sptr), .unlocking key sptr⟩ [] := by
  have hok := h.frame
  rw [hfr] at hok
  refine Thread.moves_frame rfl rfl (by rw [hfr]; rfl) (fun k p hk => ?_) hok (fun _ _ hm => hm)
    (by simp)
  by_cases hkey : k = key
  · subst hkey
    simp only [Function.update_self] at hk
    cases hk
    exact hok.2
  · simp only [Function.update_of_ne hkey] at hk
    exact h.subMap k p hk

theorem Thread.moves_unlock (h : th.Ok t sh) (hun : th.frame.unpublished = none)
    (hm : sh.centralSharedMemoryMapMutex_ = some t)
    (ho : ∀ key sptr, .returned key sptr ∈ o → sh.centralSharedMemoryMap_ key = some sptr) :
    th.Moves t sh { sh with centralSharedMemoryMapMutex_ := none } { th with frame := .idle } o :=
  Thread.moves_frame rfl rfl hun h.subMap trivial
    (fun _ hu hmu => absurd (Option.some.inj (hmu.symm.trans hm)) hu) ho

theorem Thread.next_moves (h : th.Ok t sh) (hs : th.next t sh = some (sh', th', o)) :
    th.Moves t sh sh' th' o := by
  have hok := h.frame
  unfold Thread.next at hs
  cases hfr : th.frame with
  | idle =>
    rw [hfr] at hs
    cases hs
  | finding key =>
    rw [hfr] at hs
    dsimp only at hs
    cases hfind : th.localSharedMemoryMap key with
    | some sptr =>
      rw [hfind] at hs
      cases hs
      refine Thread.moves_frame rfl rfl (by rw [hfr]; rfl) h.subMap trivial (fun _ _ hm => hm) ?_
      rintro k p hk
      cases List.mem_singleton.mp hk
      exact h.subMap key sptr hfind
    | none =>
      rw [hfind] at hs
      cases hs
      exact Thread.moves_local h (by rw [hfr]; rfl) trivial
  | locking key =>
    rw [hfr] at hs
    simp only [Option.ite_none_right_eq_some] at hs
    obtain ⟨hfree, ⟨⟩⟩ := hs
    exact Thread.moves_frame rfl rfl (by rw [hfr]; rfl) h.subMap rfl
      (fun u _ hm => by rw [hfree] at hm; cases hm) (by simp)
  | searching key =>
    rw [hfr] at hs hok
    dsimp only at hs
    cases hfind : sh.centralSharedMemoryMap_ key with
    | some sptr =>
      rw [hfind] at hs
      cases hs
      exact Thread.moves_local h (by rw [hfr]; rfl) ⟨hok, hfind⟩
    | none =>
      rw [hfind] at hs
      cases hs
      exact Thread.moves_local h (by rw [hfr]; rfl) ⟨hok, hfind⟩
  | creating key =>
    rw [hfr] at hs
    cases hs
    exact Thread.moves_creating h hfr
  | publishing key sptr =>
    rw [hfr] at hs
    cases hs
    exact Thread.moves_publishing h hfr
  | caching key sptr =>
    rw [hfr] at hs
    cases hs
    exact Thread.moves_caching h hfr
  | unlocking key sptr =>
    rw [hfr] at hs hok
    cases hs
    refine Thread.moves_unlock h (by rw [hfr]; rfl) hok.1 ?_
    rintro k p hk
    cases List.mem_singleton.mp hk
    exact hok.2

theorem Thread.step_moves (h : th.Ok t sh) (hs : th.step t sh act = some (sh', th', o)) :
    th.Moves t sh sh' th' o := by
  have hok := h.frame
  unfold Thread.step at hs
  cases act with
  | next => exact Thread.next_moves h hs
  | call key =>
    cases hfr : th.frame <;> rw [hfr] at hs <;> cases hs
    exact Thread.moves_local h (by rw [hfr]; rfl) trivial
  | throw =>
    cases hfr : th.frame <;> rw [hfr] at hs hok <;> cases hs
    exact Thread.moves_unlock h (by rw [hfr]; rfl) hok.1 (by simp)
  | exit =>
    cases hfr : th.frame <;> rw [hfr] at hs <;> cases hs
    exact Thread.moves_frame rfl rfl (by rw [hfr]; rfl) (by simp) trivial (fun _ _ hm => hm)
      (by simp)

-- ---------------------------------------------------------------------------
-- All threads
-- ---------------------------------------------------------------------------

structure State.Ok (s : State Tid) : Prop where
  threads : ∀ t, (s.threads t).Ok t s.shared
  nodup : s.shared.created.Nodup
  central : ∀ key sptr, s.shared.centralSharedMemoryMap_ key = some sptr →
    s.shared.created[sptr]? = some key
  /-- What was created is in the central map, or on its way there. -/
  published : ∀ key sptr, s.shared.created[sptr]? = some key →
    s.shared.centralSharedMemoryMap_ key = some sptr ∨
      ∃ t, (s.threads t).frame.unpublished = some (key, sptr)

theorem State.init_ok : (State.init : State Tid).Ok where
  threads _ := ⟨by simp [State.init], trivial⟩
  nodup := List.nodup_nil
  central := by simp [State.init]
  published := by simp [State.init]

variable {s s' : State Tid}

theorem Frame.unpublished_iff {fr : Frame} :
    fr.unpublished = some (key, sptr) ↔ fr = .publishing key sptr := by
  cases fr <;> simp [Frame.unpublished]

theorem Frame.Ok.keep {fr : Frame} (h : fr.Ok u sh)
    (hexcl : sh.centralSharedMemoryMapMutex_ = some u →
      sh'.centralSharedMemoryMapMutex_ = some u ∧
        sh'.centralSharedMemoryMap_ = sh.centralSharedMemoryMap_ ∧ sh'.created = sh.created) :
    fr.Ok u sh' := by
  cases fr with
  | idle | finding | locking => trivial
  | searching => exact (hexcl h).1
  | creating | publishing | caching | unlocking =>
    obtain ⟨hm, hcentral, hcreated⟩ := hexcl h.1
    simp only [Frame.Ok, hm, hcentral, hcreated, true_and]
    exact h.2

/-- A thread that holds the mutex and found nothing creates the first object for
its key: an object in the hands of another thread would have the mutex there. -/
theorem State.Ok.not_created (h : s.Ok) (hfr : (s.threads t).frame = .creating key) :
    key ∉ s.shared.created := by
  intro hmem
  have hok := (h.threads t).frame
  rw [hfr] at hok
  obtain ⟨sptr, hsptr⟩ := List.mem_iff_getElem?.mp hmem
  rcases h.published key sptr hsptr with hc | ⟨u, hu⟩
  · rw [hok.2] at hc
    cases hc
  · rw [Frame.unpublished_iff] at hu
    have hoku := (h.threads u).frame
    rw [hu] at hoku
    obtain rfl : u = t := Option.some.inj (hoku.1.symm.trans hok.1)
    rw [hfr] at hu
    cases hu

section

variable [DecidableEq Tid]

section
variable (h : s.Ok) (hm : (s.threads t).Moves t s.shared sh' th' o)
include h hm

omit [DecidableEq Tid] in
theorem State.Ok.central_moves (hk : sh'.centralSharedMemoryMap_ key = some sptr) :
    sh'.created[sptr]? = some key := by
  have hbefore : s.shared.created[sptr]? = some key := by
    rcases hm.stems key sptr hk with hc | hun
    · exact h.central key sptr hc
    · have hok := (h.threads t).frame
      rw [Frame.unpublished_iff.mp hun] at hok
      exact hok.2.2
  rcases hm.creates with heq | ⟨k, -, heq, -⟩
  · rw [heq, hbefore]
  · rw [heq, List.getElem?_append_left (List.getElem?_eq_some_iff.mp hbefore).1, hbefore]

/-- An object is put into the central map by the thread that created it, and by
no other step. -/
theorem State.Ok.published_before (hk : s.shared.created[sptr]? = some key) :
    sh'.centralSharedMemoryMap_ key = some sptr ∨
      ∃ u, (Function.update s.threads t th' u).frame.unpublished = some (key, sptr) := by
  rcases h.published key sptr hk with hc | ⟨u, hu⟩
  · exact .inl (hm.grows key sptr hc)
  · by_cases hut : u = t
    · subst hut
      exact .inl (hm.settles key sptr hu)
    · exact .inr ⟨u, by rw [Function.update_of_ne hut, hu]⟩

theorem State.Ok.published_moves (hk : sh'.created[sptr]? = some key) :
    sh'.centralSharedMemoryMap_ key = some sptr ∨
      ∃ u, (Function.update s.threads t th' u).frame.unpublished = some (key, sptr) := by
  rcases hm.creates with heq | ⟨k, -, heq, hun⟩
  · rw [heq] at hk
    exact h.published_before hm hk
  · rw [heq] at hk
    by_cases hlt : sptr < s.shared.created.length
    · rw [List.getElem?_append_left hlt] at hk
      exact h.published_before hm hk
    · rw [List.getElem?_append_right (Nat.not_lt.mp hlt), List.getElem?_singleton] at hk
      simp only [Option.ite_none_right_eq_some, Option.some.injEq] at hk
      obtain rfl : sptr = s.shared.created.length :=
        Nat.le_antisymm (Nat.sub_eq_zero_iff_le.mp hk.1) (Nat.not_lt.mp hlt)
      obtain rfl := hk.2
      exact .inr ⟨t, by simp only [Function.update_self, hun]⟩

end

theorem State.Ok.moves (h : s.Ok) (hm : (s.threads t).Moves t s.shared sh' th' o) :
    State.Ok ⟨sh', Function.update s.threads t th'⟩ where
  threads := by
    refine (Function.forall_update_iff s.threads fun u th => th.Ok u sh').mpr
      ⟨hm.ok, fun u hu => ⟨fun key sptr hk => ?_, (h.threads u).frame.keep (hm.excludes u hu)⟩⟩
    exact hm.grows key sptr ((h.threads u).subMap key sptr hk)
  nodup := by
    rcases hm.creates with heq | ⟨key, hfr, heq, -⟩
    · rw [heq]
      exact h.nodup
    · rw [heq]
      exact List.nodup_append'.mpr ⟨h.nodup, List.nodup_singleton key, by
        simpa using h.not_created hfr⟩
  central _ _ hk := h.central_moves hm hk
  published _ _ hk := h.published_moves hm hk

/-- What was returned is in the central map for good. -/
structure Returned (os : List (Tid × Event)) (s : State Tid) : Prop where
  ok : s.Ok
  central : ∀ t key sptr, (t, .returned key sptr) ∈ os →
    s.shared.centralSharedMemoryMap_ key = some sptr

theorem Returned.step {x : Tid × Act} (h : Returned os s)
    (hs : (machine Tid).step s x = some (s', o)) : Returned (os ++ o) s' := by
  obtain ⟨t, act⟩ := x
  obtain ⟨sh, th, es, hstep, rfl, rfl⟩ := Machine.interleave_step_iff.mp hs
  have hm := Thread.step_moves (h.ok.threads t) hstep
  refine ⟨h.ok.moves hm, fun u key sptr hmem => ?_⟩
  rcases List.mem_append.mp hmem with hmem | hmem
  · exact hm.grows key sptr (h.central u key sptr hmem)
  · obtain ⟨e, he, heq⟩ := List.mem_map.mp hmem
    cases heq
    exact hm.returns key sptr he

/-- In every run, at most one object is created for a key, all calls return the
object that was created for their key, and a thread's map is part of the
central one. -/
theorem shared_memory_unique (h : (machine Tid).run State.init as = some (s, os)) :
    s.shared.created.Nodup ∧
    (∀ t key sptr, (t, .returned key sptr) ∈ os → s.shared.created[sptr]? = some key) ∧
    (∀ t u key sptr sptr', (t, .returned key sptr) ∈ os → (u, .returned key sptr') ∈ os →
      sptr = sptr') ∧
    ∀ t key sptr, (s.threads t).localSharedMemoryMap key = some sptr →
      s.shared.centralSharedMemoryMap_ key = some sptr := by
  have hr : Returned os s :=
    @Machine.run_keeps _ _ _ (machine Tid) [] [] _ _ _ _ (fun _ _ => True) (fun _ => Returned)
      (fun _ _ _ _ _ _ h _ hs => h.step hs) ⟨State.init_ok, by simp⟩ .trivial h
  refine ⟨hr.ok.nodup, fun t key sptr hmem => hr.ok.central _ _ (hr.central t key sptr hmem),
    fun t u key sptr sptr' hmem hmem' => ?_, fun t => (hr.ok.threads t).subMap⟩
  have hsame := (hr.central t key sptr hmem).symm.trans (hr.central u key sptr' hmem')
  exact Option.some.inj hsame

end

def bothMiss : List (Bool × Act) :=
  [(true, .call ['k']), (false, .call ['k']), (true, .next), (false, .next)] ++
    List.replicate 6 (true, .next) ++ List.replicate 4 (false, .next)

theorem shared_memory_unique_bothMiss :
    ∃ s os, (machine Bool).run State.init bothMiss = some (s, os) ∧
      os = [(true, .returned ['k'] 0), (false, .returned ['k'] 0)] ∧
      s.shared.created[0]? = some ['k'] := by
  have h : ((machine Bool).run State.init bothMiss).map (fun r => r.2) =
      some [(true, .returned ['k'] 0), (false, .returned ['k'] 0)] := by decide
  obtain ⟨⟨s, os⟩, hrun, hos⟩ := Option.map_eq_some_iff.mp h
  refine ⟨s, os, hrun, hos, (shared_memory_unique hrun).2.1 true ['k'] 0 ?_⟩
  simp [show os = _ from hos]

end CppUtil.Lockfree.IpcMessageQueue
