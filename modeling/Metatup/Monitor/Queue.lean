import Mathlib.Data.List.Forall2
import Metatup.Lib.Touches
import Metatup.Monitor.Inotify

/-!
# What the queue of the monitor stands for

A queued event is one or two touches of files. An event that comes in strikes out some of those on
the same file.

* `pending`: the touches of a file that are pending in the queue.
* `Undoes`: what an event undoes.
-/

namespace Metatup

open Lib

/-! ### Events on files -/

/-- The file that an event is on: the watch and the name. -/
def InotifyEvent.file (e : InotifyEvent) : Int × Text := (e.wd, e.name)

/-- How long the kernel makes a name: at least one zero byte follows it, and the length is a multiple
of the size of an event. -/
def paddedLen (name : Text) : ℕ := (name.length / 16 + 1) * 16

/-- An event of the kernel on a file. -/
def fileEvent (p : Int × Text) (mask : Mask) (cookie : ℕ) : InotifyEvent :=
  { wd := p.1, mask := mask, cookie := cookie, len := paddedLen p.2, name := p.2 }

/-- The event has the length that the kernel gives it. -/
def InotifyEvent.Padded (e : InotifyEvent) : Prop := e.len = paddedLen e.name

section

variable {p : Int × Text} {mask : Mask} {cookie : ℕ} {e e₁ e₂ : InotifyEvent} {m : MonitorEvent}

@[simp] theorem fileEvent_file : (fileEvent p mask cookie).file = p := rfl

@[simp] theorem fileEvent_mask : (fileEvent p mask cookie).mask = mask := rfl

theorem fileEvent_padded : (fileEvent p mask cookie).Padded := rfl

theorem paddedLen_ne_zero (name : Text) : paddedLen name ≠ 0 := by
  unfold paddedLen
  omega

theorem sameEvent_iff (h₁ : e₁.Padded) (h₂ : e₂.Padded) : sameEvent e₁ e₂ = true ↔ e₁.file = e₂.file := by
  unfold sameEvent InotifyEvent.file
  rw [h₁, h₂]
  simp only [Bool.and_eq_true, Bool.or_eq_true, decide_eq_true_eq, Prod.mk.injEq, paddedLen_ne_zero,
    false_or]
  constructor
  · rintro ⟨⟨hwd, -⟩, hname⟩
    exact ⟨hwd, hname⟩
  · rintro ⟨hwd, hname⟩
    exact ⟨⟨hwd, by rw [hname]⟩, hname⟩

theorem eq_of_eventcmp (h₁ : e₁.Padded) (h : eventcmp e₁ e₂ = true) : e₁ = e₂ := by
  unfold eventcmp at h
  simp only [Bool.and_eq_true, Bool.or_eq_true, decide_eq_true_eq] at h
  obtain ⟨⟨⟨⟨hwd, hmask⟩, hcookie⟩, hlen⟩, hname⟩ := h
  rw [h₁] at hname
  rcases hname with hname | hname
  · exact absurd hname (paddedLen_ne_zero _)
  · cases e₁
    cases e₂
    simp_all

/-- The file is not one that the monitor skips. -/
def Shown (p : Int × Text) : Prop := p.2.head? ≠ some '.'

instance (p : Int × Text) : Decidable (Shown p) := by
  unfold Shown
  infer_instance

theorem skipEvent_fileEvent (h : Shown p) : skipEvent (fileEvent p mask cookie) = false := by
  have hpad : pelIgnored (fileEvent p mask cookie).padded = false := by
    rw [← Bool.not_eq_true]
    intro hign
    have hzero : '\x00' ∈ (fileEvent p mask cookie).padded := by
      refine List.mem_append_right _ (List.mem_replicate.2 ⟨?_, rfl⟩)
      change paddedLen p.2 - p.2.length ≠ 0
      unfold paddedLen
      omega
    unfold pelIgnored at hign
    rw [decide_eq_true_eq, List.mem_map] at hign
    obtain ⟨s, hs, heq⟩ := hign
    rw [← heq] at hzero
    revert hzero
    simp only [List.mem_cons, List.not_mem_nil, or_false] at hs
    rcases hs with rfl | rfl | rfl | rfl | rfl | rfl | rfl | rfl
    all_goals decide
  unfold skipEvent
  rw [hpad, Bool.or_false]
  have hhead : decide ((fileEvent p mask cookie).name.head? = some '.') = false := decide_eq_false h
  rw [hhead, Bool.and_false, Bool.false_and]

end

/-! ### Pending touches -/

/-- The file of a queued event. -/
abbrev MonitorEvent.file (m : MonitorEvent) : Int × Text := m.e.file

/-- What the handling of a queued event amounts to. -/
def MonitorEvent.touches (m : MonitorEvent) : List ((Int × Text) × Touch) :=
  match m.e.mask, m.fromEvent with
  | .movedTo, some mfe => [(m.file, .change), (mfe.e.file, .drop)]
  | .movedTo, none => [(m.file, .look), (m.file, .change)]
  | .create, _ => [(m.file, .look)]
  | .modify, _ | .attrib, _ => [(m.file, .change)]
  | .delete, _ | .movedFrom, _ => [(m.file, .drop)]
  | .none, _ | .overflow, _ => []

/-- The touches of a file that are pending in a queue. -/
def pending (p : Int × Text) (queue : List MonitorEvent) : List Touch :=
  touchesAt p (queue.flatMap MonitorEvent.touches)

/-- A file that has been moved away to a name where it is waited for. -/
def TakenAway (p : Int × Text) (queue : List MonitorEvent) : Prop :=
  ∃ m ∈ queue, m.e.mask = .movedTo ∧ ∃ mfe, m.fromEvent = some mfe ∧ mfe.e.file = p

section

variable {p r : Int × Text} {queue queue' more : List MonitorEvent} {m : MonitorEvent}

@[simp] theorem pending_append :
    pending p (queue ++ more) = pending p queue ++ pending p more := by
  unfold pending
  rw [List.flatMap_append, touchesAt_append]

theorem pending_singleton : pending p [m] = touchesAt p m.touches := by
  unfold pending
  rw [List.flatMap_singleton]

theorem pending_cons : pending p (m :: queue) = touchesAt p m.touches ++ pending p queue := by
  unfold pending
  rw [List.flatMap_cons, touchesAt_append]

/-- A file is dropped by an event on it or by one that has taken it away. -/
theorem drop_mem_pending : Touch.drop ∈ pending p queue ↔
    (∃ m ∈ queue, m.file = p ∧ m.e.mask.isDel = true) ∨ TakenAway p queue := by
  unfold pending
  rw [mem_touchesAt, List.mem_flatMap]
  constructor
  · rintro ⟨m, hm, ht⟩
    unfold MonitorEvent.touches at ht
    split at ht
    all_goals simp only [List.mem_cons, Prod.mk.injEq, reduceCtorEq, and_false, List.not_mem_nil,
      or_false, false_or, and_true] at ht
    · next mfe hmask hfrom => exact .inr ⟨m, hm, hmask, mfe, hfrom, ht.symm⟩
    · next hmask => exact .inl ⟨m, hm, ht.symm, by rw [hmask]; rfl⟩
    · next hmask => exact .inl ⟨m, hm, ht.symm, by rw [hmask]; rfl⟩
  · rintro (⟨m, hm, rfl, hdel⟩ | ⟨m, hm, hmask, mfe, hfrom, rfl⟩)
    · refine ⟨m, hm, ?_⟩
      unfold MonitorEvent.touches
      unfold Mask.isDel at hdel
      split at hdel
      · next hmask => simp [hmask]
      · next hmask => simp [hmask]
      · cases hdel
    · refine ⟨m, hm, ?_⟩
      unfold MonitorEvent.touches
      rw [hmask, hfrom]
      simp

/-- An event that has been struck out is nothing. -/
@[simp] theorem touches_strike (m : MonitorEvent) : m.strike.touches = [] := rfl

@[simp] theorem strike_file (m : MonitorEvent) : m.strike.file = m.file := rfl

theorem touches_movedFrom (h : m.e.mask = .movedFrom) : m.touches = [(m.file, .drop)] := by
  unfold MonitorEvent.touches
  rw [h]

/-- Some of the events on `p` have been struck out. -/
def Struck (p : Int × Text) (queue queue' : List MonitorEvent) : Prop :=
  List.Forall₂ (fun m m' => m' = m ∨ (m.file = p ∧ m' = m.strike)) queue queue'

namespace Struck

/-- What is left was there. -/
theorem mem (h : Struck p queue queue') (hm : m ∈ queue') : m ∈ queue ∨ m.e.mask = .none := by
  induction h with
  | nil => exact .inl hm
  | cons hhead _ ih =>
    rcases List.mem_cons.1 hm with rfl | hm
    · rcases hhead with rfl | ⟨-, rfl⟩
      · exact .inl List.mem_cons_self
      · exact .inr rfl
    · exact (ih hm).imp_left (List.mem_cons_of_mem _)

/-- The events on other files are left. -/
theorem mem_of_ne (h : Struck p queue queue') (hm : m ∈ queue) (hne : m.file ≠ p) : m ∈ queue' := by
  induction h with
  | nil => exact hm
  | cons hhead _ ih =>
    rcases List.mem_cons.1 hm with rfl | hm
    · rcases hhead with rfl | ⟨heq, -⟩
      · exact List.mem_cons_self
      · exact absurd heq hne
    · exact List.mem_cons_of_mem _ (ih hm)

theorem file_padded (h : Struck p queue queue') (hq : ∀ m ∈ queue, m.e.Padded) :
    ∀ m ∈ queue', m.e.Padded := by
  induction h with
  | nil => exact hq
  | @cons a b l l' hhead _ ih =>
    intro m hm
    rcases List.mem_cons.1 hm with rfl | hm
    · have ha := hq a List.mem_cons_self
      rcases hhead with rfl | ⟨-, rfl⟩
      · exact ha
      · exact ha
    · exact ih (fun x hx => hq x (List.mem_cons_of_mem _ hx)) m hm

theorem getLast (h : Struck p queue queue') (hm : queue'.getLast? = some m) :
    queue.getLast? = some m ∨ m.e.mask = .none := by
  induction h with
  | nil => exact .inl hm
  | @cons a b l l' hhead htail ih =>
    cases htail with
    | nil =>
      rcases hhead with rfl | ⟨-, rfl⟩
      · exact .inl hm
      · obtain rfl := Option.some.inj hm
        exact .inr rfl
    | cons _ _ =>
      rw [List.getLast?_cons_cons] at hm ⊢
      exact ih hm

/-- The touches of other files are as they were, when no event on `p` takes another file away. -/
theorem pending (h : Struck p queue queue')
    (hfrom : ∀ m ∈ queue, m.file = p → m.e.mask = .movedTo → m.fromEvent = none) (hr : r ≠ p) :
    Metatup.pending r queue' = Metatup.pending r queue := by
  induction h with
  | nil => rfl
  | @cons m m' l l' hhead _ ih =>
    rw [pending_cons, pending_cons, ih fun x hx => hfrom x (List.mem_cons_of_mem _ hx)]
    rcases hhead with rfl | ⟨hfile, rfl⟩
    · rfl
    · congr 1
      have hnone := hfrom m List.mem_cons_self hfile
      have hne : m.file ≠ r := by
        rw [hfile]
        exact hr.symm
      rw [touches_strike, touchesAt_nil]
      unfold MonitorEvent.touches
      split
      · next mfe hmask hsome =>
        rw [hnone hmask] at hsome
        cases hsome
      all_goals simp [touchesAt, hne]

end Struck

end

/-! ### What an event undoes -/

section

variable {e : InotifyEvent} {queue : List MonitorEvent}

/-- Once `create_and_delete` is set all events on the file are struck out. -/
theorem ephemeralLoop_true (hq : ∀ m ∈ queue, m.e.Padded) (he : e.Padded) (hnew : e.mask.isNew = false) :
    ∃ queue' rc, ephemeralLoop e true queue = (queue', e, rc) ∧ Struck e.file queue queue' ∧
      (∀ m ∈ queue', m.file = e.file → m.e.mask = .none) ∧ (e.mask.isDel = false → rc = false) := by
  induction queue with
  | nil => exact ⟨[], false, rfl, .nil, fun m hm => absurd hm List.not_mem_nil, fun _ => rfl⟩
  | cons m queue ih =>
    obtain ⟨queue', rc, hrun, hstruck, hleft, hrc⟩ := ih fun x hx => hq x (List.mem_cons_of_mem m hx)
    have hm := sameEvent_iff (hq m List.mem_cons_self) he
    unfold ephemeralLoop
    by_cases hsame : m.file = e.file
    · have hcons : Struck e.file (m :: queue) (m.strike :: queue') := .cons (.inr ⟨hsame, rfl⟩) hstruck
      have hnone : ∀ x ∈ m.strike :: queue', x.file = e.file → x.e.mask = .none := by
        intro x hx hfile
        rcases List.mem_cons.1 hx with rfl | hx
        · rfl
        · exact hleft x hx hfile
      rw [if_pos (hm.2 hsame), hnew, Bool.and_false, hrun]
      by_cases htrig : (m.e.mask.isNew && e.mask.isDel) = true
      · rw [if_pos htrig]
        refine ⟨m.strike :: queue', true, rfl, hcons, hnone, fun hdel => ?_⟩
        rw [hdel, Bool.and_false] at htrig
        cases htrig
      · rw [if_neg htrig]
        exact ⟨m.strike :: queue', rc, rfl, hcons, hnone, hrc⟩
    · rw [if_neg (mt hm.1 hsame), hrun]
      refine ⟨m :: queue', rc, rfl, .cons (.inl rfl) hstruck, ?_, hrc⟩
      intro x hx hfile
      rcases List.mem_cons.1 hx with rfl | hx
      · exact absurd hfile hsame
      · exact hleft x hx hfile

theorem Mask.not_new_of_del {mask : Mask} (h : mask.isDel = true) : mask.isNew = false := by
  cases mask <;> first | rfl | cases h

/-- What `ephemeral_event` does with the event `e`: it leaves the queue alone; or `e` ends a file that
an event in the queue has brought, and is not to be queued; or `e` brings a file that an event in the
queue has ended, and becomes a modification. -/
inductive Undoes (e : InotifyEvent) (queue : List MonitorEvent) :
    List MonitorEvent × InotifyEvent × Bool → Prop
  | nothing (hdel : e.mask.isDel = true → ∀ m ∈ queue, m.file = e.file → m.e.mask.isNew = false)
      (hnew : e.mask.isNew = true → ∀ m ∈ queue, m.file = e.file → m.e.mask.isDel = false) :
      Undoes e queue (queue, e, false)
  | ended {queue' : List MonitorEvent} (hdel : e.mask.isDel = true)
      (hnew : ∃ m ∈ queue, m.file = e.file ∧ m.e.mask.isNew = true)
      (hstruck : Struck e.file queue queue') : Undoes e queue (queue', e, true)
  | renewed {queue' : List MonitorEvent} (hnew : e.mask.isNew = true)
      (hdel : ∃ m ∈ queue, m.file = e.file ∧ m.e.mask.isDel = true)
      (hstruck : Struck e.file queue queue')
      (hleft : ∀ m ∈ queue', m.file = e.file → m.e.mask.isDel = false) :
      Undoes e queue (queue', { e with mask := .modify }, false)

/-- An event that is not concerned goes before the ones that are. -/
theorem Undoes.cons {m : MonitorEvent} {res : List MonitorEvent × InotifyEvent × Bool}
    (h : Undoes e queue res)
    (hm : m.file = e.file → ¬ (m.e.mask.isNew && e.mask.isDel) = true ∧
      ¬ (m.e.mask.isDel && e.mask.isNew) = true) :
    Undoes e (m :: queue) (m :: res.1, res.2.1, res.2.2) := by
  cases h with
  | nothing hdel hnew =>
    apply Undoes.nothing
    · intro he x hx hfile
      rcases List.mem_cons.1 hx with rfl | hx
      · simpa [he] using (hm hfile).1
      · exact hdel he x hx hfile
    · intro he x hx hfile
      rcases List.mem_cons.1 hx with rfl | hx
      · simpa [he] using (hm hfile).2
      · exact hnew he x hx hfile
  | ended hdel hnew hstruck =>
    obtain ⟨x, hx, hfile, hxnew⟩ := hnew
    exact .ended hdel ⟨x, List.mem_cons_of_mem m hx, hfile, hxnew⟩ (.cons (.inl rfl) hstruck)
  | renewed hnew hdel hstruck hleft =>
    obtain ⟨x, hx, hfile, hxdel⟩ := hdel
    refine .renewed hnew ⟨x, List.mem_cons_of_mem m hx, hfile, hxdel⟩ (.cons (.inl rfl) hstruck) ?_
    intro y hy hyfile
    rcases List.mem_cons.1 hy with rfl | hy
    · simpa [hnew] using (hm hyfile).2
    · exact hleft y hy hyfile

theorem ephemeralLoop_undoes (hq : ∀ m ∈ queue, m.e.Padded) (he : e.Padded) :
    Undoes e queue (ephemeralLoop e false queue) := by
  induction queue with
  | nil =>
    exact .nothing (fun _ m hm => absurd hm List.not_mem_nil) fun _ m hm => absurd hm List.not_mem_nil
  | cons m queue ih =>
    have hq' : ∀ x ∈ queue, x.e.Padded := fun x hx => hq x (List.mem_cons_of_mem m hx)
    have hm := sameEvent_iff (hq m List.mem_cons_self) he
    unfold ephemeralLoop
    by_cases hsame : m.file = e.file
    · rw [if_pos (hm.2 hsame)]
      by_cases hdel : (m.e.mask.isNew && e.mask.isDel) = true
      · obtain ⟨hmnew, hedel⟩ := Bool.and_eq_true_iff.1 hdel
        obtain ⟨queue', rc, hrun, hstruck, -, -⟩ :=
          ephemeralLoop_true hq' he (Mask.not_new_of_del hedel)
        rw [if_pos hdel, hrun]
        exact .ended hedel ⟨m, List.mem_cons_self, hsame, hmnew⟩ (.cons (.inr ⟨hsame, rfl⟩) hstruck)
      · rw [if_neg hdel]
        by_cases hnew : (m.e.mask.isDel && e.mask.isNew) = true
        · obtain ⟨hmdel, henew⟩ := Bool.and_eq_true_iff.1 hnew
          have he' : InotifyEvent.Padded { e with mask := .modify } := he
          obtain ⟨queue', rc, hrun, hstruck, hleft, hrc⟩ := ephemeralLoop_true hq' he' rfl
          obtain rfl := hrc rfl
          rw [if_pos hnew, hrun]
          refine .renewed henew ⟨m, List.mem_cons_self, hsame, hmdel⟩
            (.cons (.inr ⟨hsame, rfl⟩) hstruck) ?_
          intro x hx hfile
          rcases List.mem_cons.1 hx with rfl | hx
          · rfl
          · rw [hleft x hx hfile]
            rfl
        · rw [if_neg hnew]
          exact (ih hq').cons fun _ => ⟨hdel, hnew⟩
    · rw [if_neg (mt hm.1 hsame)]
      exact (ih hq').cons fun hfile => absurd hfile hsame

theorem ephemeralEvent_undoes (hq : ∀ m ∈ queue, m.e.Padded) (he : e.Padded) :
    Undoes e queue (ephemeralEvent queue e) := by
  unfold ephemeralEvent
  by_cases hkind : (e.mask.isNew || e.mask.isDel) = true
  · rw [hkind, Bool.not_true, if_neg Bool.false_ne_true]
    exact ephemeralLoop_undoes hq he
  · rw [Bool.not_eq_true] at hkind
    rw [hkind, Bool.not_false, if_pos rfl]
    rw [Bool.or_eq_false_iff] at hkind
    apply Undoes.nothing
    · intro hdel
      rw [hkind.2] at hdel
      cases hdel
    · intro hnew
      rw [hkind.1] at hnew
      cases hnew

end

end Metatup
