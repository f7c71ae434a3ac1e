import Mathlib.Data.List.Forall2
import Mathlib.Data.List.Nodup
import Metatup.Monitor.Renames

/-!
# No rename outlives its event

The entries of the list of moves are taken out when a move is claimed and when it is handled. An
event on the same file that strikes the move out leaves the entry behind, and so does a flush that
skips the event of a directory whose watch is disabled.

* `Spares`: an input does neither.
* `Inv.event`, `Inv.flush`: what such inputs keep.
* `renamesKept_of_monitorRun`: the list refers to events that are waiting, in every such run.
-/

namespace Metatup.Inotify

/-! ### The condition -/

/-- An event strikes a move out: it is a new file of that name, or the end of one that is queued
before the move. -/
def Cancels (queue : List QueuedEvent) (e : Event) (m : QueuedEvent) : Prop :=
  e.mask.isDir = false ∧ sameEvent m.e e = true ∧ (e.mask.isNew = true ∨ e.mask.isDel = true ∧
    ∃ pre post, queue = pre ++ m :: post ∧
      ∃ m₀ ∈ pre, sameEvent m₀.e e = true ∧ m₀.e.mask.isNew = true)

/-- An input leaves the moves that wait alone: no event strikes one out, and the queue is not
flushed while the watch of one is disabled. -/
def Spares (s : MonitorState) : MonitorInput → Prop
  | .event e => skipEvent e = false → (s.eventList.getLast?.any fun m => eventcmp m.e e) = false →
      ∀ m ∈ s.eventList, m.addr ∈ s.movedFromList → ¬ Cancels s.eventList e m
  | .flush _ => ∀ m ∈ s.eventList, m.addr ∈ s.movedFromList → s.droot m.e.wd ≠ some true

/-! ### Striking events out -/

/-- Some events are struck out. -/
def Thinned (queue queue' : List QueuedEvent) : Prop :=
  List.Forall₂ (fun m m' => m' = m ∨ m' = m.strike) queue queue'

section

variable {s s' : MonitorState} {queue queue' : List QueuedEvent} {m m' : QueuedEvent}
  {e e' : Event} {rc cad : Bool} {a : ℕ}

namespace Thinned

theorem refl (queue : List QueuedEvent) : Thinned queue queue :=
  List.forall₂_same.2 fun _ _ => .inl rfl

theorem addr (h : Thinned queue queue') :
    queue'.map QueuedEvent.addr = queue.map QueuedEvent.addr := by
  induction h with
  | nil => rfl
  | cons hm _ ih =>
    rw [List.map_cons, List.map_cons, ih]
    rcases hm with rfl | rfl <;> rfl

theorem mem (h : Thinned queue queue') (hm : m' ∈ queue') :
    ∃ m ∈ queue, m' = m ∨ m' = m.strike := by
  induction h with
  | nil => cases hm
  | cons hx _ ih =>
    rcases List.mem_cons.1 hm with rfl | hm
    · exact ⟨_, List.mem_cons_self, hx⟩
    · obtain ⟨m, hmem, hx⟩ := ih hm
      exact ⟨m, List.mem_cons_of_mem _ hmem, hx⟩

end Thinned

theorem not_isNew_of_movedFrom {mask : EventMask} (h : mask.has .movedFrom = true) :
    mask.isNew = false := by
  have hbit : mask.bit = some .movedFrom := of_decide_eq_true h
  simp [EventMask.isNew, EventMask.has, hbit]

/-- A move that waits stays when nothing strikes it out; `cad` is that something has been struck out
already. -/
theorem ephemeralLoop_spec (h : ephemeralLoop e cad queue = (queue', e', rc)) :
    Thinned queue queue' ∧ (e' = e ∨ e' = { e with mask := { bit := some .modify } }) ∧
      ∀ pre m post, queue = pre ++ m :: post → m.e.mask.has .movedFrom = true →
        ¬ (sameEvent m.e e = true ∧ (cad = true ∨ e.mask.isNew = true ∨ e.mask.isDel = true ∧
          ∃ m₀ ∈ pre, sameEvent m₀.e e = true ∧ m₀.e.mask.isNew = true)) → m ∈ queue' := by
  induction queue generalizing e cad queue' e' rc with
  | nil =>
    cases h
    exact ⟨.nil, .inl rfl, fun pre m post hq => absurd hq (by simp)⟩
  | cons x queue ih =>
    unfold ephemeralLoop at h
    split at h
    · next hsame =>
      split at h
      · next hends =>
        rw [Bool.and_eq_true] at hends
        rcases hrec : ephemeralLoop e true queue with ⟨q₁, e₁, rc₁⟩
        rw [hrec] at h
        cases h
        obtain ⟨hthin, he, hkept⟩ := ih hrec
        refine ⟨.cons (.inr rfl) hthin, he, fun pre m post hq hmoved hnot => ?_⟩
        rcases List.cons_eq_append_iff.1 hq with ⟨rfl, hm⟩ | ⟨pre, rfl, hrest⟩
        · obtain ⟨rfl, rfl⟩ := List.cons.inj hm
          rw [not_isNew_of_movedFrom hmoved] at hends
          cases hends.1
        · refine List.mem_cons_of_mem _ (hkept pre m post hrest hmoved fun hm => hnot ⟨hm.1, ?_⟩)
          exact .inr (.inr ⟨hends.2, x, List.mem_cons_self, hsame, hends.1⟩)
      · split at h
        · next hrenews =>
          rw [Bool.and_eq_true] at hrenews
          rcases hrec : ephemeralLoop { e with mask := { bit := some .modify } } true queue with
            ⟨q₁, e₁, rc₁⟩
          rw [hrec] at h
          cases h
          obtain ⟨hthin, he, hkept⟩ := ih hrec
          refine ⟨.cons (.inr rfl) hthin, .inr (he.elim id id), fun pre m post hq hmoved hnot => ?_⟩
          rcases List.cons_eq_append_iff.1 hq with ⟨rfl, hm⟩ | ⟨pre, rfl, hrest⟩
          · obtain ⟨rfl, rfl⟩ := List.cons.inj hm
            exact absurd ⟨hsame, .inr (.inl hrenews.2)⟩ hnot
          · refine List.mem_cons_of_mem _ (hkept pre m post hrest hmoved fun hm => hnot ⟨hm.1, ?_⟩)
            exact .inr (.inl hrenews.2)
        · rcases hrec : ephemeralLoop e cad queue with ⟨q₁, e₁, rc₁⟩
          rw [hrec] at h
          cases h
          obtain ⟨hthin, he, hkept⟩ := ih hrec
          have hhead : (if cad = true then x.strike else x) = x ∨
              (if cad = true then x.strike else x) = x.strike := by
            split
            · exact .inr rfl
            · exact .inl rfl
          refine ⟨.cons hhead hthin, he, fun pre m post hq hmoved hnot => ?_⟩
          rcases List.cons_eq_append_iff.1 hq with ⟨rfl, hm⟩ | ⟨pre, rfl, hrest⟩
          · obtain ⟨rfl, rfl⟩ := List.cons.inj hm
            rw [if_neg fun hcad => hnot ⟨hsame, .inl hcad⟩]
            exact List.mem_cons_self
          · refine List.mem_cons_of_mem _ (hkept pre m post hrest hmoved fun hm => hnot ⟨hm.1, ?_⟩)
            refine hm.2.imp_right (Or.imp_right (And.imp_right ?_))
            rintro ⟨m₀, hm₀, hold⟩
            exact ⟨m₀, List.mem_cons_of_mem x hm₀, hold⟩
    · rcases hrec : ephemeralLoop e cad queue with ⟨q₁, e₁, rc₁⟩
      rw [hrec] at h
      cases h
      obtain ⟨hthin, he, hkept⟩ := ih hrec
      refine ⟨.cons (.inl rfl) hthin, he, fun pre m post hq hmoved hnot => ?_⟩
      rcases List.cons_eq_append_iff.1 hq with ⟨rfl, hm⟩ | ⟨pre, rfl, hrest⟩
      · obtain ⟨rfl, rfl⟩ := List.cons.inj hm
        exact List.mem_cons_self
      · refine List.mem_cons_of_mem _ (hkept pre m post hrest hmoved fun hm => hnot ⟨hm.1, ?_⟩)
        refine hm.2.imp_right (Or.imp_right (And.imp_right ?_))
        rintro ⟨m₀, hm₀, hold⟩
        exact ⟨m₀, List.mem_cons_of_mem x hm₀, hold⟩

theorem ephemeralEvent_spec (h : ephemeralEvent queue e = (queue', e', rc)) :
    Thinned queue queue' ∧ (e' = e ∨ e' = { e with mask := { bit := some .modify } }) ∧
      ∀ m ∈ queue, m.e.mask.has .movedFrom = true → ¬ Cancels queue e m → m ∈ queue' := by
  unfold ephemeralEvent at h
  split at h
  · cases h
    exact ⟨.refl _, .inl rfl, fun m hm _ _ => hm⟩
  next hdir =>
  split at h
  · cases h
    exact ⟨.refl _, .inl rfl, fun m hm _ _ => hm⟩
  · obtain ⟨hthin, he, hkept⟩ := ephemeralLoop_spec h
    refine ⟨hthin, he, fun m hm hmoved hnot => ?_⟩
    obtain ⟨pre, post, rfl⟩ := List.append_of_mem hm
    refine hkept pre m post rfl hmoved fun hcancel => hnot ⟨Bool.eq_false_iff.2 hdir, hcancel.1, ?_⟩
    rcases hcancel.2 with hcad | hnew | ⟨hdel, m₀, hm₀, hold⟩
    · cases hcad
    · exact .inl hnew
    · exact .inr ⟨hdel, pre, post, rfl, m₀, hm₀, hold⟩

/-! ### What holds in every state -/

/-- Entries refer to events that wait, and how the queue looks. -/
structure Inv (s : MonitorState) : Prop where
  addrs : (s.eventList.map QueuedEvent.addr).Nodup
  next : ∀ m ∈ s.eventList, m.addr < s.next
  claims : ∀ m ∈ s.eventList, ∀ a, m.fromEvent = some a → a < s.next
  watched : ∀ m ∈ s.eventList, m.e.mask.has .movedFrom = true → m.e.wd ≠ -1
  self : ∀ m ∈ s.eventList, m.e.mask.has .movedFrom = true → m.fromEvent = some m.addr
  pending : ∀ a ∈ s.movedFromList, ∃ m ∈ s.eventList, m.addr = a ∧ m.e.mask.has .movedFrom = true ∧
    ∀ m' ∈ s.eventList, m'.fromEvent = some a → m' = m
  nodup : s.movedFromList.Nodup

namespace Inv

/-- Entries may go. -/
theorem sub (h : Inv s) {l : List ℕ} (hl : l.Sublist s.movedFromList) :
    Inv { s with movedFromList := l } :=
  { h with
    pending := fun a ha => h.pending a (hl.subset ha)
    nodup := h.nodup.sublist hl }

/-- Events may be struck out that no entry refers to. -/
theorem thin (h : Inv s) (hthin : Thinned s.eventList queue)
    (hkept : ∀ m ∈ s.eventList, m.addr ∈ s.movedFromList → m.e.mask.has .movedFrom = true →
      m ∈ queue) : Inv { s with eventList := queue } := by
  have hsame : ∀ m' ∈ queue, ∃ m ∈ s.eventList, m'.addr = m.addr ∧ m'.fromEvent = m.fromEvent ∧
      (m'.e.mask.has .movedFrom = true → m' = m) := by
    intro m' hm'
    obtain ⟨m, hm, heq⟩ := hthin.mem hm'
    refine ⟨m, hm, ?_⟩
    rcases heq with rfl | rfl
    · exact ⟨rfl, rfl, fun _ => rfl⟩
    · exact ⟨rfl, rfl, fun hmoved => by cases hmoved⟩
  have haddrs : (queue.map QueuedEvent.addr).Nodup := hthin.addr ▸ h.addrs
  refine ⟨haddrs, ?_, ?_, ?_, ?_, ?_, h.nodup⟩
  · intro m' hm'
    obtain ⟨m, hm, haddr, -⟩ := hsame m' hm'
    exact haddr ▸ h.next m hm
  · intro m' hm' a ha
    obtain ⟨m, hm, -, hfrom, -⟩ := hsame m' hm'
    exact h.claims m hm a (hfrom ▸ ha)
  · intro m' hm' hmoved
    obtain ⟨m, hm, -, -, heq⟩ := hsame m' hm'
    obtain rfl := heq hmoved
    exact h.watched m' hm hmoved
  · intro m' hm' hmoved
    obtain ⟨m, hm, -, -, heq⟩ := hsame m' hm'
    obtain rfl := heq hmoved
    exact h.self m' hm hmoved
  · intro a ha
    obtain ⟨m, hm, rfl, hmoved, huncl⟩ := h.pending a ha
    have hmq : m ∈ queue := hkept m hm ha hmoved
    refine ⟨m, hmq, rfl, hmoved, fun m' hm' hfrom => ?_⟩
    obtain ⟨m₀, hm₀, haddr, hfrom₀, -⟩ := hsame m' hm'
    have heq : m₀ = m := huncl m₀ hm₀ (hfrom₀ ▸ hfrom)
    exact List.inj_on_of_nodup_map haddrs hm' hmq (heq ▸ haddr)

/-- A new event. -/
theorem insert (h : Inv s) (hwd : e.wd = -1 → e.mask.has .movedFrom = false) {mfe : Option ℕ}
    (hmfe : ∀ a, mfe = some a → a < s.next ∧ a ∉ s.movedFromList) : Inv (insertEvent s mfe e) := by
  have hnodup : ∀ x : QueuedEvent, x.addr = s.next →
      ((s.eventList ++ [x]).map QueuedEvent.addr).Nodup := by
    intro x hx
    rw [List.map_append, List.map_singleton, List.nodup_append_comm, List.singleton_append,
      List.nodup_cons, hx]
    refine ⟨fun hmem => ?_, h.addrs⟩
    obtain ⟨m, hm, haddr⟩ := List.mem_map.1 hmem
    exact (h.next m hm).ne haddr
  have hlt : ∀ a ∈ s.movedFromList, a < s.next := by
    intro a ha
    obtain ⟨m, hm, rfl, -⟩ := h.pending a ha
    exact h.next m hm
  have hmem : ∀ x m : QueuedEvent, m ∈ s.eventList ++ [x] ↔ m ∈ s.eventList ∨ m = x := by simp
  unfold insertEvent
  split
  · next hmoved =>
    refine ⟨hnodup _ rfl, ?_, ?_, ?_, ?_, ?_, ?_⟩
    · intro m hm
      rcases (hmem _ m).1 hm with hm | rfl
      · exact (h.next m hm).trans (Nat.lt_succ_self _)
      · exact Nat.lt_succ_self _
    · intro m hm a ha
      rcases (hmem _ m).1 hm with hm | rfl
      · exact (h.claims m hm a ha).trans (Nat.lt_succ_self _)
      · obtain rfl := Option.some.inj ha
        exact Nat.lt_succ_self _
    · intro m hm hmask
      rcases (hmem _ m).1 hm with hm | rfl
      · exact h.watched m hm hmask
      · intro heq
        rw [hwd heq] at hmoved
        cases hmoved
    · intro m hm hmask
      rcases (hmem _ m).1 hm with hm | rfl
      · exact h.self m hm hmask
      · rfl
    · intro a ha
      rcases List.mem_cons.1 ha with rfl | ha
      · refine ⟨_, (hmem _ _).2 (.inr rfl), rfl, hmoved, fun m hm hfrom => ?_⟩
        rcases (hmem _ m).1 hm with hm | rfl
        · exact absurd (h.claims m hm _ hfrom) (lt_irrefl _)
        · rfl
      · obtain ⟨m, hm, haddr, hmask, huncl⟩ := h.pending a ha
        refine ⟨m, (hmem _ m).2 (.inl hm), haddr, hmask, fun m' hm' hfrom => ?_⟩
        rcases (hmem _ m').1 hm' with hm' | rfl
        · exact huncl m' hm' hfrom
        · exact absurd (Option.some.inj hfrom) (hlt a ha).ne'
    · exact List.nodup_cons.2 ⟨fun hin => lt_irrefl _ (hlt _ hin), h.nodup⟩
  · next hmoved =>
    refine ⟨hnodup _ rfl, ?_, ?_, ?_, ?_, ?_, h.nodup⟩
    · intro m hm
      rcases (hmem _ m).1 hm with hm | rfl
      · exact (h.next m hm).trans (Nat.lt_succ_self _)
      · exact Nat.lt_succ_self _
    · intro m hm a ha
      rcases (hmem _ m).1 hm with hm | rfl
      · exact (h.claims m hm a ha).trans (Nat.lt_succ_self _)
      · exact (hmfe a ha).1.trans (Nat.lt_succ_self _)
    · intro m hm hmask
      rcases (hmem _ m).1 hm with hm | rfl
      · exact h.watched m hm hmask
      · exact absurd hmask hmoved
    · intro m hm hmask
      rcases (hmem _ m).1 hm with hm | rfl
      · exact h.self m hm hmask
      · exact absurd hmask hmoved
    · intro a ha
      obtain ⟨m, hm, haddr, hmask, huncl⟩ := h.pending a ha
      refine ⟨m, (hmem _ m).2 (.inl hm), haddr, hmask, fun m' hm' hfrom => ?_⟩
      rcases (hmem _ m').1 hm' with hm' | rfl
      · exact huncl m' hm' hfrom
      · exact absurd ha (hmfe a hfrom).2

/-- A claim takes the entry out and strikes its event. -/
theorem check (h : Inv s) {mfe : Option ℕ} (hrun : checkFromEvents s e = (s', mfe)) :
    Inv s' ∧ ∀ a, mfe = some a → a < s'.next ∧ a ∉ s'.movedFromList := by
  unfold checkFromEvents at hrun
  split at hrun
  · next a hfind =>
    cases hrun
    have ha : a ∈ s.movedFromList := List.mem_of_find?_eq_some hfind
    have hnot : a ∉ s.movedFromList.erase a := h.nodup.not_mem_erase
    have hthin : Thinned s.eventList
        (s.eventList.map fun m => if m.addr = a then m.strike else m) := by
      rw [Thinned, List.forall₂_map_right_iff, List.forall₂_same]
      intro m _
      by_cases heq : m.addr = a
      · exact .inr (if_pos heq)
      · exact .inl (if_neg heq)
    refine ⟨(h.sub List.erase_sublist).thin hthin fun m hm hpending _ => ?_, fun b hb => ?_⟩
    · refine List.mem_map.2 ⟨m, hm, if_neg ?_⟩
      rintro rfl
      exact hnot hpending
    · obtain rfl := Option.some.inj hb
      obtain ⟨m, hm, rfl, -⟩ := h.pending a ha
      exact ⟨h.next m hm, hnot⟩
  · cases hrun
    exact ⟨h, fun a ha => by cases ha⟩

theorem disable (h : Inv s) (e : Event) : Inv (disableWatch s e) := by
  unfold disableWatch
  split
  · exact { h with }
  · exact h

/-- An event that comes in. -/
theorem event (h : Inv s) (he : e.WellFormed) (hspares : Spares s (.event e)) :
    Inv (queueEvent s e) := by
  unfold queueEvent
  split
  · exact h
  next hskip =>
  split
  · exact h
  next hsame =>
  rcases hrun : ephemeralEvent s.eventList e with ⟨queue, e', rc⟩
  obtain ⟨hthin, he', hkept⟩ := ephemeralEvent_spec hrun
  have hspares := hspares (Bool.eq_false_iff.2 hskip) (Bool.eq_false_iff.2 hsame)
  have hqueue : Inv { s with eventList := queue } :=
    h.thin hthin fun m hm hpending hmoved => hkept m hm hmoved (hspares m hm hpending)
  have hwd : e'.wd = -1 → e'.mask.has .movedFrom = false := by
    rcases he' with rfl | rfl
    · intro hneg
      simp [EventMask.has, he hneg]
    · exact fun _ => rfl
  dsimp only
  split
  · exact hqueue
  · have hdis := hqueue.disable e'
    split
    · rcases hcheck : checkFromEvents (disableWatch { s with eventList := queue } e') e' with
        ⟨s₁, mfe⟩
      obtain ⟨hs₁, hmfe⟩ := hdis.check hcheck
      exact hs₁.insert hwd hmfe
    · exact hdis.insert hwd fun a ha => by cases ha

end Inv

/-! ### Flushing the queue -/

/-- What handling events does to the state: entries and watches go. -/
structure Handled (s s' : MonitorState) : Prop where
  eventList : s'.eventList = s.eventList
  next : s'.next = s.next
  entries : s'.movedFromList.Sublist s.movedFromList
  enabled : ∀ wd, s'.droot wd = some true → s.droot wd = some true

theorem Handled.refl (s : MonitorState) : Handled s s := ⟨rfl, rfl, .refl _, fun _ => id⟩

theorem Handled.trans {s₁ : MonitorState} (h : Handled s s₁) (h₁ : Handled s₁ s') : Handled s s' :=
  ⟨h₁.eventList.trans h.eventList, h₁.next.trans h.next, h₁.entries.trans h.entries,
    fun wd hwd => h.enabled wd (h₁.enabled wd hwd)⟩

variable {calls : Calls}

theorem Calls.enabled_of_runIf {w : Work} {b : Bool} {d d' : Int → Option Bool}
    (h : calls.runIf b w d = some d') (wd : Int) (hwd : d' wd = some true) : d wd = some true := by
  unfold Calls.runIf at h
  split at h
  · exact calls.enabled w d d' h wd hwd
  · cases h
    exact hwd

theorem handleMovedFrom_handled (h : handleMovedFrom calls s m = some s') : Handled s s' ∧
    ∀ a, m.e.mask.has .movedFrom = true → m.fromEvent = some a →
      s'.movedFromList = s.movedFromList.erase a := by
  unfold handleMovedFrom at h
  split at h
  · obtain ⟨droot, hrun, h⟩ := Option.bind_eq_some_iff.1 h
    obtain ⟨a, ha, h⟩ := Option.bind_eq_some_iff.1 h
    cases h
    refine ⟨⟨rfl, rfl, List.erase_sublist, calls.enabled _ _ _ hrun⟩, fun b _ hb => ?_⟩
    rw [ha] at hb
    cases hb
    rfl
  · next hnot =>
    cases h
    exact ⟨.refl _, fun a hmoved => absurd hmoved hnot⟩

/-- An event that is handled. The entry of a move is taken out, unless the watch is disabled. -/
theorem handleEvent_handled (h : handleEvent calls s m = some s') : Handled s s' ∧
    ∀ a, m.e.mask.has .movedFrom = true → m.fromEvent = some a → s.droot m.e.wd ≠ some true →
      s'.movedFromList = s.movedFromList.erase a := by
  have hbit : ∀ b, b ≠ .movedFrom → m.e.mask.has b = true → ¬ m.e.mask.has .movedFrom = true := by
    intro b hb hhas hmoved
    have h₁ : m.e.mask.bit = some b := of_decide_eq_true hhas
    have h₂ : m.e.mask.bit = some .movedFrom := of_decide_eq_true hmoved
    exact hb (Option.some.inj (h₁.symm.trans h₂))
  unfold handleEvent at h
  split at h
  · next hignored =>
    cases h
    refine ⟨⟨rfl, rfl, .refl _, fun wd hwd => ?_⟩, fun a hmoved => ?_⟩
    · dsimp only at hwd
      by_cases heq : wd = m.e.wd
      · subst heq
        rw [Function.update_self] at hwd
        cases hwd
      · rwa [Function.update_of_ne heq] at hwd
    · exact absurd hmoved (hbit .ignored (by decide) hignored)
  split at h
  · cases h
  · next hdisabled =>
    cases h
    exact ⟨.refl _, fun a _ _ hnot => absurd hdisabled hnot⟩
  · split at h
    · next hto =>
      rw [Bool.and_eq_true] at hto
      obtain ⟨a, -, h⟩ := Option.bind_eq_some_iff.1 h
      obtain ⟨fromM, -, h⟩ := Option.bind_eq_some_iff.1 h
      obtain ⟨b, -, h⟩ := Option.bind_eq_some_iff.1 h
      obtain ⟨droot, hrun, h⟩ := Option.bind_eq_some_iff.1 h
      cases h
      exact ⟨⟨rfl, rfl, .refl _, calls.enabled _ _ _ hrun⟩,
        fun a hmoved => absurd hmoved (hbit .movedTo (by decide) hto.1)⟩
    · split at h
      · next hnew =>
        obtain ⟨droot, hrun, rfl⟩ := Option.map_eq_some_iff.1 h
        refine ⟨⟨rfl, rfl, .refl _, calls.enabled _ _ _ hrun⟩, fun a hmoved => ?_⟩
        rw [Bool.or_eq_true] at hnew
        rcases hnew with hnew | hnew
        · exact absurd hmoved (hbit .create (by decide) hnew)
        · exact absurd hmoved (hbit .movedTo (by decide) hnew)
      · obtain ⟨d₁, h₁, h⟩ := Option.bind_eq_some_iff.1 h
        obtain ⟨d₂, h₂, h⟩ := Option.bind_eq_some_iff.1 h
        obtain ⟨hhandled, hentry⟩ := handleMovedFrom_handled h
        have hdroot : Handled s { s with droot := d₂ } :=
          ⟨rfl, rfl, .refl _, fun wd hwd =>
            Calls.enabled_of_runIf h₁ wd (Calls.enabled_of_runIf h₂ wd hwd)⟩
        exact ⟨hdroot.trans hhandled, fun a hmoved ha _ => hentry a hmoved ha⟩

/-- The loop over the queue. When it goes through, the entries of the moves have been taken out. -/
theorem flushLoop_handled {ok : Bool} (h : flushLoop calls queue s = (s', ok))
    (hnodup : s.movedFromList.Nodup) : Handled s s' ∧ (ok = true → ∀ m ∈ queue,
      m.e.mask.has .movedFrom = true → m.e.wd ≠ -1 → m.fromEvent = some m.addr →
        s.droot m.e.wd ≠ some true → m.addr ∉ s'.movedFromList) := by
  induction queue generalizing s with
  | nil =>
    cases h
    exact ⟨.refl _, fun _ m hm => by cases hm⟩
  | cons x queue ih =>
    unfold flushLoop at h
    split at h
    · next hskip =>
      obtain ⟨hhandled, hgone⟩ := ih h hnodup
      refine ⟨hhandled, fun hok m hm hmoved hwd hself hdroot => ?_⟩
      rcases List.mem_cons.1 hm with rfl | hm
      · rw [Bool.or_eq_true, decide_eq_true_eq, decide_eq_true_eq] at hskip
        rcases hskip with hneg | hzero
        · exact absurd hneg hwd
        · rw [hzero] at hmoved
          cases hmoved
      · exact hgone hok m hm hmoved hwd hself hdroot
    · split at h
      · cases h
        exact ⟨.refl _, fun hok => by cases hok⟩
      · next s₁ hevent =>
        obtain ⟨hfirst, hentry⟩ := handleEvent_handled hevent
        obtain ⟨hrest, hgone⟩ := ih h (hnodup.sublist hfirst.entries)
        refine ⟨hfirst.trans hrest, fun hok m hm hmoved hwd hself hdroot => ?_⟩
        rcases List.mem_cons.1 hm with rfl | hm
        · intro hin
          have hin := hrest.entries.subset hin
          rw [hentry m.addr hmoved hself hdroot] at hin
          exact hnodup.not_mem_erase hin
        · exact hgone hok m hm hmoved hwd hself fun htrue => hdroot (hfirst.enabled _ htrue)

/-- A flush of the queue. -/
theorem Inv.flush (h : Inv s) (hspares : Spares s (.flush calls)) :
    Inv (flushQueue calls s).1 ∧
      ((flushQueue calls s).2 ≠ .error → (flushQueue calls s).1.movedFromList = []) := by
  unfold flushQueue
  rcases hrun : flushLoop calls s.eventList s with ⟨s', ok⟩
  obtain ⟨hhandled, hgone⟩ := flushLoop_handled hrun h.nodup
  have hs' : Inv s' := by
    have hsub := h.sub hhandled.entries
    obtain ⟨heventList, hnext, -, -⟩ := hhandled
    exact
      { addrs := heventList ▸ hsub.addrs
        next := heventList ▸ hnext ▸ hsub.next
        claims := heventList ▸ hnext ▸ hsub.claims
        watched := heventList ▸ hsub.watched
        self := heventList ▸ hsub.self
        pending := heventList ▸ hsub.pending
        nodup := hsub.nodup }
  cases ok with
  | false => exact ⟨hs', fun hne => absurd rfl hne⟩
  | true =>
    have hempty : s'.movedFromList = [] := by
      rw [List.eq_nil_iff_forall_not_mem]
      intro a ha
      obtain ⟨m, hm, rfl, hmoved, -⟩ := h.pending a (hhandled.entries.subset ha)
      exact hgone rfl m hm hmoved (h.watched m hm hmoved) (h.self m hm hmoved)
        (hspares m hm (hhandled.entries.subset ha)) ha
    have hnone : ∀ m : QueuedEvent, m ∉ ([] : List QueuedEvent) := fun m => List.not_mem_nil
    refine ⟨⟨List.nodup_nil, ?_, ?_, ?_, ?_, ?_, hs'.nodup⟩, fun _ => hempty⟩
    · exact fun m hm => absurd hm (hnone m)
    · exact fun m hm => absurd hm (hnone m)
    · exact fun m hm => absurd hm (hnone m)
    · exact fun m hm => absurd hm (hnone m)
    · intro a ha
      rw [hempty] at ha
      cases ha

/-! ### Runs -/

theorem inv_of_monitorRun {last : Option FlushResult} (h : MonitorRun Spares s last) :
    Inv s ∧ (last = some .done → s.movedFromList = []) := by
  induction h with
  | init droot =>
    refine ⟨⟨List.nodup_nil, ?_, ?_, ?_, ?_, ?_, List.nodup_nil⟩, fun h => by cases h⟩
    · exact fun m hm => by cases hm
    · exact fun m hm => by cases hm
    · exact fun m hm => by cases hm
    · exact fun m hm => by cases hm
    · exact fun a ha => by cases ha
  | event h hlast he hok ih => exact ⟨ih.1.event he hok, fun h => by cases h⟩
  | flush h hlast hok ih =>
    obtain ⟨hinv, hempty⟩ := ih.1.flush hok
    refine ⟨hinv, fun hdone => hempty fun herror => ?_⟩
    rw [herror] at hdone
    cases hdone

end

/-- In a run whose inputs leave the moves that wait alone, the list of moves refers to events that
wait, and it is empty after every flush. -/
theorem renamesKept_of_monitorRun {s : MonitorState} {last : Option FlushResult}
    (h : MonitorRun Spares s last) : RenamesKept s last := by
  obtain ⟨hinv, hflushed⟩ := inv_of_monitorRun h
  exact ⟨hinv.pending, hinv.nodup, hflushed⟩

/-! ### A rename -/

/-- A watch on one directory, and a monitor whose other parts succeed. -/
def oneWatch : MonitorState := { droot := fun wd => if wd = 1 then some false else none }

def succeeds : Calls := ⟨fun _ d => some d, fun _ _ _ h _ hwd => by cases h; exact hwd⟩

/-- The file `a` is moved away. -/
def aGone : Event :=
  { wd := 1, mask := { bit := some .movedFrom }, cookie := 7, len := 16, name := ['a'] }

/-- It is called `b` now. -/
def bHere : Event := { aGone with mask := { bit := some .movedTo }, name := ['b'] }

/-- Another file `a` is made. -/
def aAgain : Event := { aGone with mask := { bit := some .create }, cookie := 0 }

/-- A rename whose halves come one after the other, and then a flush. -/
theorem renamesKept_of_monitorRun_bHere : RenamesKept
    (flushQueue succeeds (queueEvent (queueEvent oneWatch aGone) bHere)).1 (some .done) := by
  have hgone : MonitorRun Spares (queueEvent oneWatch aGone) none :=
    .event (.init _) (by simp) (fun h => by cases h) fun _ _ m hm => by cases hm
  have hhere : MonitorRun Spares (queueEvent (queueEvent oneWatch aGone) bHere) none := by
    refine .event hgone (by simp) (fun h => by cases h) fun _ _ m hm _ hcancels => ?_
    have hlist : (queueEvent oneWatch aGone).eventList = [⟨0, some 0, aGone⟩] := by decide
    rw [hlist, List.mem_singleton] at hm
    subst hm
    exact absurd hcancels.2.1 (by decide)
  have hflush := @MonitorRun.flush _ _ _ succeeds hhere (by simp) fun m _ hpending => by
    have hlist : (queueEvent (queueEvent oneWatch aGone) bHere).movedFromList = [] := by decide
    rw [hlist] at hpending
    cases hpending
  exact renamesKept_of_monitorRun hflush

/-- A new file of the old name comes before the flush. -/
theorem struck_rename_is_not_kept :
    ¬ ∀ s last, MonitorRun (fun _ _ => True) s last → RenamesKept s last := by
  intro hall
  have hgone : MonitorRun (fun _ _ => True) (queueEvent oneWatch aGone) none :=
    .event (.init _) (by simp) (fun h => by cases h) trivial
  have hagain : MonitorRun (fun _ _ => True)
      (queueEvent (queueEvent oneWatch aGone) aAgain) none :=
    .event hgone (by simp) (fun h => by cases h) trivial
  have hflush := @MonitorRun.flush _ _ _ succeeds hagain (by simp) trivial
  have hempty := (hall _ _ hflush).flushed (by decide)
  exact absurd hempty (by decide)

end Metatup.Inotify
