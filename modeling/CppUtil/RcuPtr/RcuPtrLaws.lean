import CppUtil.RcuPtr.RcuPtr

/-!
# One step of a thread

A thread is looked at together with `r`, the references all other threads
have. `Thread.Ok` is what holds of it between steps: the reference counts are
right, nothing is null, and the deep copy of an `Update` has exactly one
reference, its owner's. `Thread.Moves` is what a step guarantees: the thread
is still `Ok`, no object that others can see has changed, and what the step
did to the published value is what its events say. `Thread.step_moves` proves
it for every step.
-/

namespace CppUtil.RcuPtr

open Lang Lib

variable {T : Type}

def Call.NonNull : Call T → Prop
  | .store r => r ≠ none
  | _ => True

def Act.NonNull : Act T → Prop
  | .call c => c.NonNull
  | _ => True

def Frame.owns : Frame T → Addr → Nat
  | .idle, _ | .called _, _ | .fault, _ => 0
  | .copying _ c, a => refs c a
  | .applying _ c d, a | .exchanging _ c d, a => refs c a + refs d a

def Thread.owns (th : Thread T) (a : Addr) : Nat := th.held.count a + th.frame.owns a

def Thread.uses (sh : Shared T) (th : Thread T) (r : Addr → Nat) (a : Addr) : Nat :=
  refs sh.sp_ a + th.owns a + r a

/-- What holds of a frame when there are `n` references to each address. -/
def Frame.Ok (sh : Shared T) (held : List Addr) (n : Addr → Nat) : Frame T → Prop
  | .idle => True
  | .called c => c.NonNull ∧ c.allowed held
  | .copying _ c => c ≠ none
  | .applying _ c d => ∃ a b, c = some a ∧ d = some b ∧ n b = 1 ∧
      sh.heap.value b = sh.heap.value a
  | .exchanging func c d => ∃ a b, c = some a ∧ d = some b ∧ n b = 1 ∧
      sh.heap.value b = (sh.heap.value a).map func
  | .fault => False

structure Thread.Ok (sh : Shared T) (th : Thread T) (r : Addr → Nat) : Prop where
  counts : sh.heap.Counts (th.uses sh r)
  nonNull : sh.sp_ ≠ none
  frame : th.frame.Ok sh th.held (th.uses sh r)

structure Thread.Moves (sh : Shared T) (th : Thread T) (r : Addr → Nat) (act : Act T)
    (sh' : Shared T) (th' : Thread T) (o : List (Event T)) : Prop where
  ok : th'.Ok sh' r
  keeps : ∀ a, 0 < r a ∨ a ∈ th.held ∧ a ∈ th'.held → sh'.heap.value a = sh.heap.value a
  alone : ∀ a, 0 < r a → refs sh.sp_ a + th.owns a = 0 →
    refs sh'.sp_ a + th'.owns a = 0
  published : sh'.published = o.foldl Event.apply sh.published
  legal : Legal sh.published o
  calls : th.frame.pending ++ act.calls = o.map Event.call ++ th'.frame.pending
  held : ∀ a ∈ th.held, a ∈ th'.held ∨ act = .drop a
  returns : ∀ p v, .loaded (some p) v ∈ o → p ∈ th'.held ∧ sh'.heap.value p = v

variable {sh : Shared T} {th : Thread T} {r : Addr → Nat}

theorem Frame.isIdle_iff {fr : Frame T} : fr.isIdle = true ↔ fr = .idle := by
  cases fr <;> simp [isIdle]

theorem Thread.uses_pos_of_published (h : sh.sp_ = some a) : 0 < th.uses sh r a := by
  have := refs_pos_iff.mpr h
  unfold Thread.uses
  omega

theorem Thread.uses_pos (h : 0 < r a ∨ a ∈ th.held) : 0 < th.uses sh r a := by
  unfold Thread.uses Thread.owns
  rcases h with h | h
  · omega
  · have := List.count_pos_iff.mpr h
    omega

theorem Shared.published_eq {H : Heap Addr T}
    (h : ∀ a, sh.sp_ = some a → H.value a = sh.heap.value a) :
    Shared.published { sh with heap := H } = sh.published := by
  unfold Shared.published
  cases hp : sh.sp_ with
  | none => rfl
  | some a => exact h a hp

-- ---------------------------------------------------------------------------
-- Between calls
-- ---------------------------------------------------------------------------

theorem Thread.moves_call (h : th.Ok sh r) (hidle : th.frame = .idle)
    (hc : c.NonNull) (hal : c.allowed th.held) :
    th.Moves sh r (.call c) sh { th with frame := .called c } [] := by
  have hrefs : ∀ a, Thread.owns { th with frame := .called c } a = th.owns a := by
    intro a
    simp only [Thread.owns, Frame.owns, hidle]
  refine { ok := ⟨h.counts.congr fun a => ?_, h.nonNull, hc, hal⟩, keeps := fun _ _ => rfl,
           alone := fun a _ h0 => ?_, published := rfl, legal := by simp [Legal], returns := by simp,
           calls := by simp [hidle, Frame.pending, Act.calls], held := fun a ha => .inl ha }
  · simp only [Thread.uses, hrefs]
  · rwa [hrefs]

theorem Thread.moves_make (h : th.Ok sh r) (hidle : th.frame = .idle)
    (hfree : sh.heap.useCount a = 0) :
    th.Moves sh r (.make a v) { sh with heap := sh.heap.makeShared a v }
      { th with held := a :: th.held } [] := by
  have hzero : th.uses sh r a = 0 := by rw [← h.counts.useCount, hfree]
  have hcounts : (sh.heap.makeShared a v).Counts
      (Thread.uses { sh with heap := sh.heap.makeShared a v } { th with held := a :: th.held } r) := by
    refine h.counts.makeShared hfree fun b => ?_
    simp only [Thread.uses, Thread.owns, count_cons_eq]
    omega
  have hkeep : ∀ b, 0 < th.uses sh r b →
      (sh.heap.makeShared a v).value b = sh.heap.value b := by
    intro b hb
    apply Heap.value_makeShared_of_ne
    rintro rfl
    omega
  refine { ok := ⟨hcounts, h.nonNull, by simp [hidle, Frame.Ok]⟩, keeps := fun b hb => ?_,
           alone := fun b hr h0 => ?_, published := ?_, legal := by simp [Legal], returns := by simp,
           calls := by simp [hidle, Frame.pending, Act.calls],
           held := fun b hb => .inl (List.mem_cons_of_mem _ hb) }
  · exact hkeep b (Thread.uses_pos (hb.imp_right And.left))
  · simp only [Thread.owns, count_cons_eq] at h0 ⊢
    have hb : refs (some a) b = 0 := by
      apply refs_of_ne
      rintro ⟨⟩
      unfold Thread.uses at hzero
      omega
    omega
  · exact Shared.published_eq fun p hp => hkeep p (Thread.uses_pos_of_published hp)

theorem Thread.moves_drop (h : th.Ok sh r) (hidle : th.frame = .idle) (ha : a ∈ th.held) :
    th.Moves sh r (.drop a) { sh with heap := sh.heap.release (some a) }
      { th with held := th.held.erase a } [] := by
  have hcount : ∀ b, th.held.count b = refs (some a) b + (th.held.erase a).count b :=
    fun b => count_eq_erase ha
  have hcounts : (sh.heap.release (some a)).Counts
      (Thread.uses { sh with heap := sh.heap.release (some a) }
        { th with held := th.held.erase a } r) := by
    refine h.counts.release fun b => ?_
    simp only [Thread.uses, Thread.owns, hcount]
    omega
  refine { ok := ⟨hcounts, h.nonNull, by simp [hidle, Frame.Ok]⟩, keeps := fun b hb => ?_,
           alone := fun b hr h0 => ?_, published := ?_, legal := by simp [Legal], returns := by simp,
           calls := by simp [hidle, Frame.pending, Act.calls], held := fun b hb => ?_ }
  · exact hcounts.value_release (Thread.uses_pos (hb.imp_right And.right))
  · simp only [Thread.owns, hcount] at h0 ⊢
    omega
  · exact Shared.published_eq fun p hp =>
      hcounts.value_release (Thread.uses_pos_of_published hp)
  · by_cases hba : b = a
    · exact .inr (by rw [hba])
    · exact .inl ((List.mem_erase_of_ne hba).mpr hb)

-- ---------------------------------------------------------------------------
-- Load and Store
-- ---------------------------------------------------------------------------

theorem Thread.counts_load (h : th.Ok sh r)
    (hth : ∀ a, Thread.owns th' a = th.owns a + refs sh.sp_ a) :
    sh.load.heap.Counts (th'.uses sh.load r) := by
  refine h.counts.acquire (fun a => Thread.uses_pos_of_published) fun a => ?_
  simp only [Thread.uses, hth, Shared.load]
  omega

theorem Thread.moves_load (h : th.Ok sh r) (hfr : th.frame = .called .load) :
    th.Moves sh r (.next fresh) sh.load { held := sh.sp_.toList ++ th.held, frame := .idle }
      [.loaded sh.sp_ sh.published] := by
  have howns : ∀ a, (⟨sh.sp_.toList ++ th.held, .idle⟩ : Thread T).owns a =
      th.owns a + refs sh.sp_ a := by
    intro a
    simp only [Thread.owns, hfr, Frame.owns, count_toList_append]
    omega
  refine { ok := ⟨Thread.counts_load h howns, h.nonNull, trivial⟩, keeps := fun _ _ => rfl,
           alone := fun a _ h0 => ?_, published := rfl, legal := by simp [Legal],
           calls := by simp [hfr, Frame.pending, Act.calls, Event.call],
           held := fun a ha => .inl (List.mem_append_right _ ha), returns := fun p v hp => ?_ }
  · rw [howns]
    simp only [Shared.load]
    omega
  · obtain ⟨hsp, rfl⟩ := Event.loaded.inj (List.mem_singleton.mp hp)
    simp [Shared.load, Shared.published, ← hsp]

theorem Thread.moves_store (h : th.Ok sh r) (hfr : th.frame = .called (.store p)) :
    th.Moves sh r (.next fresh) (sh.store p) { th with frame := .idle }
      [.stored p (sh.heap.read p)] := by
  have hok := h.frame
  rw [hfr] at hok
  obtain ⟨hne, hal⟩ := hok
  obtain ⟨b, rfl⟩ := Option.ne_none_iff_exists'.mp hne
  have hb : b ∈ th.held := by simpa [Call.allowed] using hal
  have howns : ∀ a, ({ th with frame := .idle } : Thread T).owns a = th.owns a := by
    intro a
    simp only [Thread.owns, hfr, Frame.owns]
  have hacq : (sh.heap.acquire (some b)).Counts fun a => th.uses sh r a + refs (some b) a := by
    refine h.counts.acquire ?_ fun _ => rfl
    rintro a ⟨⟩
    exact Thread.uses_pos (.inr hb)
  have hcounts : (sh.store (some b)).heap.Counts
      (Thread.uses (sh.store (some b)) { th with frame := .idle } r) := by
    refine hacq.release fun a => ?_
    simp only [Thread.uses, howns, Shared.store]
    omega
  refine { ok := ⟨hcounts, by simp [Shared.store], trivial⟩, keeps := fun a ha => ?_,
           alone := fun a _ h0 => ?_, published := ?_, legal := by simp [Legal], returns := by simp,
           calls := by simp [hfr, Frame.pending, Act.calls, Event.call],
           held := fun a ha => .inl ha }
  · exact hcounts.value_release (Thread.uses_pos (ha.imp_right And.right))
  · have hab : some b ≠ some a := by
      rintro ⟨⟩
      have := List.count_pos_iff.mpr hb
      unfold Thread.owns at h0
      omega
    rw [howns, Shared.store, refs_of_ne hab]
    omega
  · exact hcounts.value_release (Thread.uses_pos_of_published rfl)

-- ---------------------------------------------------------------------------
-- Update
-- ---------------------------------------------------------------------------

theorem Thread.moves_begin (h : th.Ok sh r) (hfr : th.frame = .called (.update func)) :
    th.Moves sh r (.next fresh) sh.load { th with frame := .copying func sh.sp_ } [] := by
  have howns : ∀ a, Thread.owns { th with frame := .copying func sh.sp_ } a =
      th.owns a + refs sh.sp_ a := by
    intro a
    simp only [Thread.owns, hfr, Frame.owns, Nat.add_zero]
  refine { ok := ⟨Thread.counts_load h howns, h.nonNull, h.nonNull⟩, keeps := fun _ _ => rfl,
           alone := fun a _ h0 => ?_, published := rfl, legal := by simp [Legal], returns := by simp,
           calls := by simp [hfr, Frame.pending, Act.calls], held := fun a ha => .inl ha }
  rw [howns]
  simp only [Shared.load]
  omega

theorem Thread.moves_copy (h : th.Ok sh r) (hfr : th.frame = .copying func (some c))
    (hv : sh.heap.value c = some v) (hfree : sh.heap.useCount fresh = 0) :
    th.Moves sh r (.next fresh) { sh with heap := sh.heap.makeShared fresh v }
      { th with frame := .applying func (some c) (some fresh) } [] := by
  have hzero : th.uses sh r fresh = 0 := by rw [← h.counts.useCount, hfree]
  have huses : ∀ a, Thread.uses { sh with heap := sh.heap.makeShared fresh v }
      { th with frame := .applying func (some c) (some fresh) } r a =
      th.uses sh r a + refs (some fresh) a := by
    intro a
    simp only [Thread.uses, Thread.owns, hfr, Frame.owns]
    omega
  have hkeep : ∀ a, 0 < th.uses sh r a →
      (sh.heap.makeShared fresh v).value a = sh.heap.value a := by
    intro a ha
    apply Heap.value_makeShared_of_ne
    rintro rfl
    omega
  have hc : 0 < th.uses sh r c := (h.counts.alive c).mp (by rw [hv]; rfl)
  refine { ok := ⟨h.counts.makeShared hfree huses, h.nonNull, c, fresh, rfl, rfl, ?_, ?_⟩,
           keeps := fun a ha => hkeep a (Thread.uses_pos (ha.imp_right And.left)),
           alone := fun a hr h0 => ?_,
           published := Shared.published_eq fun a ha => hkeep a (Thread.uses_pos_of_published ha),
           legal := by simp [Legal], returns := by simp, calls := by simp [hfr, Frame.pending, Act.calls],
           held := fun a ha => .inl ha }
  · rw [huses, hzero, refs_self]
  · rw [hkeep c hc, hv]
    exact Heap.value_makeShared_self ..
  · have ha : refs (some fresh) a = 0 := by
      apply refs_of_ne
      rintro ⟨⟩
      unfold Thread.uses at hzero
      omega
    simp only [Thread.owns, hfr, Frame.owns] at h0 ⊢
    omega

/-- The function writes to the deep copy only, which no one else can see. -/
theorem Thread.moves_apply (h : th.Ok sh r) (hfr : th.frame = .applying func c (some d)) :
    th.Moves sh r (.next fresh) { sh with heap := sh.heap.modify d func }
      { th with frame := .exchanging func c (some d) } [] := by
  have hok := h.frame
  rw [hfr] at hok
  obtain ⟨a, b, rfl, hd, hone, hval⟩ := hok
  cases hd
  have hone' := hone
  simp only [Thread.uses, Thread.owns, hfr, Frame.owns, refs_self] at hone'
  have hkeep : ∀ x, x ≠ d → (sh.heap.modify d func).value x = sh.heap.value x :=
    fun x hx => Heap.value_modify_of_ne _ _ hx
  have had : a ≠ d := by
    rintro rfl
    rw [refs_self] at hone'
    omega
  have huses : ∀ x, Thread.uses { sh with heap := sh.heap.modify d func }
      { th with frame := .exchanging func (some a) (some d) } r x = th.uses sh r x := by
    intro x
    simp only [Thread.uses, Thread.owns, hfr, Frame.owns]
  refine { ok := ⟨h.counts.modify.congr huses, h.nonNull, a, d, rfl, rfl, ?_, ?_⟩,
           keeps := fun x hx => hkeep x ?_, alone := fun x _ h0 => ?_,
           published := Shared.published_eq fun x hx => hkeep x ?_,
           legal := by simp [Legal], returns := by simp, calls := by simp [hfr, Frame.pending, Act.calls],
           held := fun x hx => .inl hx }
  · rw [huses, hone]
  · rw [hkeep a had, ← hval]
    exact Heap.value_modify_self ..
  · rintro rfl
    rcases hx with hx | ⟨hx, -⟩
    · omega
    · have := List.count_pos_iff.mpr hx
      omega
  · simpa only [Thread.owns, hfr, Frame.owns] using h0
  · rintro rfl
    rw [hx, refs_self] at hone'
    omega

/-- The pointer is still the one the copy was made from. It may have been
replaced and stored again since: `sp_copy` kept its object alive, so it is the
same object, and objects that are shared do not change. -/
theorem Thread.moves_exchange (h : th.Ok sh r) (hfr : th.frame = .exchanging func c d)
    (hsp : sh.sp_ = c) :
    th.Moves sh r (.next fresh) (sh.exchange c d) { th with frame := .idle }
      [.updated func] := by
  have hok := h.frame
  rw [hfr] at hok
  obtain ⟨a, b, rfl, rfl, -, hval⟩ := hok
  have hfirst : (sh.heap.release sh.sp_).Counts fun x => th.owns x + r x := by
    refine h.counts.release fun x => ?_
    unfold Thread.uses
    omega
  have hcounts : (sh.exchange (some a) (some b)).heap.Counts
      (Thread.uses (sh.exchange (some a) (some b)) { th with frame := .idle } r) := by
    refine hfirst.release fun x => ?_
    simp only [Thread.uses, Thread.owns, Shared.exchange, hfr, Frame.owns]
    omega
  have hkeep : ∀ x, 0 < Thread.uses (sh.exchange (some a) (some b)) { th with frame := .idle } r x →
      (sh.exchange (some a) (some b)).heap.value x = sh.heap.value x := by
    intro x hx
    refine (hcounts.value_release hx).trans (hfirst.value_release ?_)
    simp only [Thread.uses, Thread.owns, Shared.exchange, hfr, Frame.owns] at hx ⊢
    omega
  refine { ok := ⟨hcounts, by simp [Shared.exchange], trivial⟩,
           keeps := fun x hx => hkeep x (Thread.uses_pos (hx.imp_right And.right)),
           alone := fun x _ h0 => ?_, published := ?_, legal := by simp [Legal], returns := by simp,
           calls := by simp [hfr, Frame.pending, Act.calls, Event.call],
           held := fun x hx => .inl hx }
  · simp only [Thread.owns, Shared.exchange, hfr, Frame.owns] at h0 ⊢
    omega
  · calc (sh.exchange (some a) (some b)).heap.value b
        = sh.heap.value b := hkeep b (Thread.uses_pos_of_published rfl)
      _ = (sh.heap.value a).map func := hval
      _ = sh.published.map func := by rw [Shared.published, hsp, Heap.read_some]

theorem Thread.moves_refuse (h : th.Ok sh r) (hfr : th.frame = .exchanging func c d) :
    th.Moves sh r (.next fresh) (sh.refuse c d) { th with frame := .copying func sh.sp_ } [] := by
  have hacq : (sh.heap.acquire sh.sp_).Counts fun x => th.uses sh r x + refs sh.sp_ x :=
    h.counts.acquire (fun x => Thread.uses_pos_of_published) fun _ => rfl
  have hfirst : ((sh.heap.acquire sh.sp_).release c).Counts fun x =>
      refs sh.sp_ x + (th.held.count x + refs sh.sp_ x) + r x + refs d x := by
    refine hacq.release fun x => ?_
    simp only [Thread.uses, Thread.owns, hfr, Frame.owns]
    omega
  have hcounts : (sh.refuse c d).heap.Counts
      (Thread.uses (sh.refuse c d) { th with frame := .copying func sh.sp_ } r) :=
    hfirst.release fun _ => rfl
  have hkeep : ∀ x, 0 < Thread.uses (sh.refuse c d) { th with frame := .copying func sh.sp_ } r x →
      (sh.refuse c d).heap.value x = sh.heap.value x := by
    intro x hx
    refine (hcounts.value_release hx).trans (hfirst.value_release ?_)
    exact Nat.lt_of_lt_of_le hx (Nat.le_add_right _ _)
  refine { ok := ⟨hcounts, h.nonNull, h.nonNull⟩,
           keeps := fun x hx => hkeep x (Thread.uses_pos (hx.imp_right And.right)),
           alone := fun x _ h0 => ?_,
           published := Shared.published_eq fun x hx => hkeep x (Thread.uses_pos_of_published hx),
           legal := by simp [Legal], returns := by simp, calls := by simp [hfr, Frame.pending, Act.calls],
           held := fun x hx => .inl hx }
  simp only [Thread.owns, Shared.refuse, hfr, Frame.owns] at h0 ⊢
  omega

-- ---------------------------------------------------------------------------
-- Every step
-- ---------------------------------------------------------------------------

theorem Thread.next_moves (h : th.Ok sh r)
    (hs : th.next sh fresh = some (sh', th', o)) : th.Moves sh r (.next fresh) sh' th' o := by
  have hok := h.frame
  unfold Thread.next at hs
  cases hfr : th.frame with
  | idle | fault =>
    rw [hfr] at hs
    cases hs
  | called c =>
    rw [hfr] at hs
    cases c with
    | load =>
      cases hs
      exact Thread.moves_load h hfr
    | store p =>
      cases hs
      exact Thread.moves_store h hfr
    | update func =>
      cases hs
      exact Thread.moves_begin h hfr
  | copying func spCopy =>
    rw [hfr] at hs hok
    obtain ⟨c, rfl⟩ := Option.ne_none_iff_exists'.mp hok
    obtain ⟨v, hv⟩ : ∃ v, sh.heap.value c = some v := by
      apply h.counts.exists_value
      simp only [Thread.uses, Thread.owns, hfr, Frame.owns, refs_self]
      omega
    simp only [Thread.copy, hv] at hs
    split at hs
    · cases hs
      exact Thread.moves_copy h hfr hv ‹_›
    · cases hs
  | applying func c d =>
    rw [hfr] at hs hok
    obtain ⟨a, b, rfl, rfl, -, -⟩ := hok
    cases hs
    exact Thread.moves_apply h hfr
  | exchanging func c d =>
    rw [hfr] at hs
    dsimp only at hs
    split at hs
    · cases hs
      exact Thread.moves_exchange h hfr ‹_›
    · cases hs
      exact Thread.moves_refuse h hfr

theorem Thread.step_moves (h : th.Ok sh r) (hact : act.NonNull)
    (hs : th.step sh act = some (sh', th', o)) : th.Moves sh r act sh' th' o := by
  cases act with
  | next fresh => exact Thread.next_moves h hs
  | call c =>
    simp only [Thread.step, Frame.isIdle_iff, Option.ite_none_right_eq_some] at hs
    obtain ⟨⟨hidle, hal⟩, ⟨⟩⟩ := hs
    exact Thread.moves_call h hidle hact hal
  | make a v =>
    simp only [Thread.step, Frame.isIdle_iff, Option.ite_none_right_eq_some] at hs
    obtain ⟨⟨hidle, hfree⟩, ⟨⟩⟩ := hs
    exact Thread.moves_make h hidle hfree
  | drop a =>
    simp only [Thread.step, Frame.isIdle_iff, Option.ite_none_right_eq_some] at hs
    obtain ⟨⟨hidle, ha⟩, ⟨⟩⟩ := hs
    exact Thread.moves_drop h hidle ha

end CppUtil.RcuPtr
