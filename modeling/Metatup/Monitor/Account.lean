import Metatup.Monitor.Queue

/-!
# What the queue of the monitor accounts for

The events that the kernel sends for a change of a file are queued so that the touches that are
pending account for what has happened to the files, as long as the end of a file undoes no move that
takes a file away, and none that brings one to where a file was known.

* `QueueOk`: the touches account for what has happened, and how the queue looks.
* `QueueOk.renewed`, `QueueOk.ended`, `QueueOk.claimed`: the three ways to rewrite the queue.
* `MonitorInv.modified`, `MonitorInv.created`, `MonitorInv.removed`, `MonitorInv.moved`: the events.
-/

namespace Metatup

open Lib

/-! ### The queue accounts for what has happened -/

/-- How the queue looks. `start` says which files there were at first, and `here` which ones there
are. -/
structure QueueForm (start here : Int × Text → Bool) (queue : List MonitorEvent) : Prop where
  padded : ∀ m ∈ queue, m.e.Padded
  /-- A file that was there at first is created when it has been moved away. -/
  made : ∀ m ∈ queue, m.e.mask = .create → start m.file = true → TakenAway m.file queue
  apart : ∀ m ∈ queue, ∀ m' ∈ queue, m.file = m'.file → m.e.mask.isNew = true →
    m'.e.mask.isDel = false
  ended : ∀ m ∈ queue, m.e.mask.isDel = true →
    start m.file = true ∧ ¬ TakenAway m.file queue ∧ here m.file = false
  brought : ∀ p, here p = true → start p = false ∨ TakenAway p queue →
    ∃ m ∈ queue, m.file = p ∧ m.e.mask.isNew = true
  other : ∀ m ∈ queue, m.e.mask = .movedTo → ∀ mfe, m.fromEvent = some mfe → mfe.e.file ≠ m.file

/-- The queue accounts for what has happened to the files: `written` are those whose content has
changed since they last appeared, and `gone` those that have been gone for some time. -/
structure QueueOk (start here : Int × Text → Bool) (written gone : Set (Int × Text))
    (queue : List MonitorEvent) : Prop where
  form : QueueForm start here queue
  accounted : ∀ p, Accounted (start p) (here p) (p ∈ written) (p ∈ gone) (pending p queue)
  /-- A modification at the end of the queue may stand for another one. -/
  last : ∀ m, queue.getLast? = some m → m.e.mask = .modify ∨ m.e.mask = .attrib →
    here m.file = true → (settleAll true (.start (start m.file)) (pending m.file queue)).dirty = true

section

variable {start here : Int × Text → Bool} {written gone written' gone' : Set (Int × Text)}
  {queue queue' : List MonitorEvent} {p r : Int × Text} {m : MonitorEvent} {b : Bool}

/-- At first there is nothing to account for. -/
theorem QueueOk.nil (start : Int × Text → Bool) : QueueOk start start ∅ ∅ [] where
  form :=
    { padded := fun _ hm => absurd hm List.not_mem_nil
      made := fun _ hm => absurd hm List.not_mem_nil
      apart := fun _ hm => absurd hm List.not_mem_nil
      ended := fun _ hm => absurd hm List.not_mem_nil
      brought := by
        rintro p hp (hs | ⟨m, hm, -⟩)
        · rw [hp] at hs
          cases hs
        · exact absurd hm List.not_mem_nil
      other := fun _ hm => absurd hm List.not_mem_nil }
  accounted p := .start (start p)
  last m hm := by cases hm

theorem TakenAway.append_iff {m : MonitorEvent} (hfrom : m.e.mask = .movedTo → m.fromEvent = none) :
    TakenAway r (queue ++ [m]) ↔ TakenAway r queue := by
  constructor
  · rintro ⟨x, hx, hmask, mfe, hsome, hfile⟩
    rcases List.mem_append.1 hx with hx | hx
    · exact ⟨x, hx, hmask, mfe, hsome, hfile⟩
    · obtain rfl := List.mem_singleton.1 hx
      rw [hfrom hmask] at hsome
      cases hsome
  · rintro ⟨x, hx, hrest⟩
    exact ⟨x, List.mem_append_left _ hx, hrest⟩

/-- An event on `p` that takes nothing away has no touches elsewhere. -/
theorem pending_singleton_of_ne (hfile : m.file = p) (hfrom : m.e.mask = .movedTo → m.fromEvent = none)
    (hr : r ≠ p) : pending r [m] = [] := by
  have hne : m.file ≠ r := by
    rw [hfile]
    exact hr.symm
  rw [pending_singleton]
  unfold MonitorEvent.touches
  split
  · next mfe hmask hsome =>
    rw [hfrom hmask] at hsome
    cases hsome
  all_goals simp [touchesAt, hne]

/-- An event on `p` that takes nothing away goes to the end of the queue. -/
theorem QueueForm.append (h : QueueForm start here queue) (hpad : m.e.Padded)
    (hfile : m.file = p) (hfrom : m.e.mask = .movedTo → m.fromEvent = none)
    (hmade : m.e.mask = .create → start p = true → TakenAway p queue)
    (hnew : m.e.mask.isNew = true → ∀ x ∈ queue, x.file = p → x.e.mask.isDel = false)
    (hdel : m.e.mask.isDel = true → (∀ x ∈ queue, x.file = p → x.e.mask.isNew = false) ∧
      start p = true ∧ ¬ TakenAway p queue ∧ b = false)
    (hhere : b = true → ∀ x ∈ queue, x.file = p → x.e.mask.isDel = false)
    (hbrought : b = true → start p = false ∨ TakenAway p queue →
      (∃ x ∈ queue, x.file = p ∧ x.e.mask.isNew = true) ∨ m.e.mask.isNew = true) :
    QueueForm start (Function.update here p b) (queue ++ [m]) where
  padded := by
    intro x hx
    rcases List.mem_append.1 hx with hx | hx
    · exact h.padded x hx
    · rwa [List.mem_singleton.1 hx]
  made := by
    intro x hx hmask hstart
    rw [TakenAway.append_iff hfrom]
    rcases List.mem_append.1 hx with hx | hx
    · exact h.made x hx hmask hstart
    · obtain rfl := List.mem_singleton.1 hx
      rw [hfile] at hstart ⊢
      exact hmade hmask hstart
  apart := by
    intro x hx y hy hxy hxnew
    rcases List.mem_append.1 hx with hxq | hxm
    · rcases List.mem_append.1 hy with hyq | hym
      · exact h.apart x hxq y hyq hxy hxnew
      · obtain rfl := List.mem_singleton.1 hym
        rw [← Bool.not_eq_true]
        intro hydel
        have hx' := (hdel hydel).1 x hxq (hxy.trans hfile)
        rw [hxnew] at hx'
        cases hx'
    · obtain rfl := List.mem_singleton.1 hxm
      rcases List.mem_append.1 hy with hyq | hym
      · exact hnew hxnew y hyq (hxy.symm.trans hfile)
      · obtain rfl := List.mem_singleton.1 hym
        rw [← Bool.not_eq_true]
        intro hydel
        rw [Mask.not_new_of_del hydel] at hxnew
        cases hxnew
  ended := by
    intro x hx hxdel
    rw [TakenAway.append_iff hfrom]
    rcases List.mem_append.1 hx with hx | hx
    · obtain ⟨hs, ht, hh⟩ := h.ended x hx hxdel
      refine ⟨hs, ht, ?_⟩
      by_cases hxp : x.file = p
      · rw [hxp, Function.update_self, ← Bool.not_eq_true]
        intro hb
        rw [hhere hb x hx hxp] at hxdel
        cases hxdel
      · rwa [Function.update_of_ne hxp]
    · obtain rfl := List.mem_singleton.1 hx
      obtain ⟨-, hs, ht, hb⟩ := hdel hxdel
      rw [hfile, Function.update_self]
      exact ⟨hs, ht, hb⟩
  brought := by
    intro r hr hor
    rw [TakenAway.append_iff hfrom] at hor
    by_cases hrp : r = p
    · subst hrp
      rw [Function.update_self] at hr
      rcases hbrought hr hor with ⟨x, hx, hxfile, hxnew⟩ | hmnew
      · exact ⟨x, List.mem_append_left _ hx, hxfile, hxnew⟩
      · exact ⟨m, List.mem_append_right _ (List.mem_singleton_self m), hfile, hmnew⟩
    · rw [Function.update_of_ne hrp] at hr
      obtain ⟨x, hx, hxfile, hxnew⟩ := h.brought r hr hor
      exact ⟨x, List.mem_append_left _ hx, hxfile, hxnew⟩
  other := by
    intro x hx hmask mfe hsome
    rcases List.mem_append.1 hx with hx | hx
    · exact h.other x hx hmask mfe hsome
    · obtain rfl := List.mem_singleton.1 hx
      rw [hfrom hmask] at hsome
      cases hsome

/-- A file that an event in the queue brings may be there. -/
theorem QueueForm.here_of_new (h : QueueForm start here queue) (hm : m ∈ queue) (hfile : m.file = p)
    (hnew : m.e.mask.isNew = true) : QueueForm start (Function.update here p true) queue where
  padded := h.padded
  made := h.made
  apart := h.apart
  ended := by
    intro x hx hxdel
    obtain ⟨hs, ht, hh⟩ := h.ended x hx hxdel
    refine ⟨hs, ht, ?_⟩
    rw [Function.update_of_ne _, hh]
    intro hxp
    rw [h.apart m hm x hx (hfile.trans hxp.symm) hnew] at hxdel
    cases hxdel
  brought := by
    intro r hr hor
    by_cases hrp : r = p
    · exact ⟨m, hm, hfile.trans hrp.symm, hnew⟩
    · rw [Function.update_of_ne hrp] at hr
      exact h.brought r hr hor
  other := h.other

/-- What is accounted for when an event on `p` has gone to the end of the queue, after events on `p`
have been struck out. -/
theorem QueueOk.of_append (h : QueueOk start here written gone queue)
    (hrest : ∀ r, r ≠ p → pending r queue' = pending r queue)
    (hform : QueueForm start (Function.update here p b) (queue' ++ [m]))
    (hfile : m.file = p) (hfrom : m.e.mask = .movedTo → m.fromEvent = none)
    (hw : ∀ r, r ≠ p → (r ∈ written' ↔ r ∈ written)) (hg : ∀ r, r ≠ p → (r ∈ gone' ↔ r ∈ gone))
    {w g : Prop} (hacc : Accounted (start p) b w g (pending p queue' ++ pending p [m]))
    (hwp : p ∈ written' → w) (hgp : p ∈ gone' → g) (hlast : m.e.mask = .modify ∨ m.e.mask = .attrib → w) :
    QueueOk start (Function.update here p b) written' gone' (queue' ++ [m]) where
  form := hform
  accounted r := by
    rw [pending_append]
    by_cases hrp : r = p
    · rw [hrp, Function.update_self]
      exact hacc.mono hwp hgp
    · rw [Function.update_of_ne hrp, pending_singleton_of_ne hfile hfrom hrp, List.append_nil,
        hrest r hrp]
      exact (h.accounted r).mono (hw r hrp).1 (hg r hrp).1
  last x hx hmask hr := by
    rw [List.getLast?_concat] at hx
    obtain rfl := Option.some.inj hx
    rw [hfile, Function.update_self] at hr
    rw [hfile, pending_append]
    exact hacc.dirty hr (hlast hmask)

/-- The form of a queue of which events on `p` have been struck out. -/
theorem QueueForm.struck (h : QueueForm start here queue) (hs : Struck p queue queue')
    (hfrom : ∀ m ∈ queue, m.file = p → m.e.mask = .movedTo → m.fromEvent = none)
    (hb : b = true → (∀ m ∈ queue', m.file = p → m.e.mask.isDel = false) ∧ start p = true ∧
      ¬ TakenAway p queue) : QueueForm start (Function.update here p b) queue' := by
  have htaken : ∀ r, TakenAway r queue' ↔ TakenAway r queue := by
    intro r
    constructor
    · rintro ⟨m, hm, hmask, hrest⟩
      rcases hs.mem hm with hm | hnone
      · exact ⟨m, hm, hmask, hrest⟩
      · rw [hnone] at hmask
        cases hmask
    · rintro ⟨m, hm, hmask, mfe, hsome, hfile⟩
      refine ⟨m, hs.mem_of_ne hm fun hp => ?_, hmask, mfe, hsome, hfile⟩
      rw [hfrom m hm hp hmask] at hsome
      cases hsome
  have hmem : ∀ m ∈ queue', m.e.mask ≠ .none → m ∈ queue := fun m hm hne =>
    (hs.mem hm).resolve_right hne
  have hofnew : ∀ mask : Mask, mask.isNew = true → mask ≠ .none := by
    rintro mask hn rfl
    cases hn
  have hofdel : ∀ mask : Mask, mask.isDel = true → mask ≠ .none := by
    rintro mask hn rfl
    cases hn
  exact
    { padded := hs.file_padded h.padded
      made := by
        intro m hm hmask hstart
        rw [htaken]
        exact h.made m (hmem m hm (by rw [hmask]; decide)) hmask hstart
      apart := by
        intro x hx y hy hxy hxnew
        rw [← Bool.not_eq_true]
        intro hydel
        have hcon := h.apart x (hmem x hx (hofnew _ hxnew)) y (hmem y hy (hofdel _ hydel)) hxy hxnew
        rw [hydel] at hcon
        cases hcon
      ended := by
        intro m hm hdel
        rw [htaken]
        obtain ⟨hst, ht, hh⟩ := h.ended m (hmem m hm (hofdel _ hdel)) hdel
        refine ⟨hst, ht, ?_⟩
        by_cases hmp : m.file = p
        · rw [hmp, Function.update_self, ← Bool.not_eq_true]
          intro hbt
          rw [(hb hbt).1 m hm hmp] at hdel
          cases hdel
        · rwa [Function.update_of_ne hmp]
      brought := by
        intro r hr hor
        rw [htaken] at hor
        by_cases hrp : r = p
        · subst hrp
          rw [Function.update_self] at hr
          obtain ⟨-, hst, ht⟩ := hb hr
          rcases hor with hor | hor
          · rw [hst] at hor
            cases hor
          · exact absurd hor ht
        · rw [Function.update_of_ne hrp] at hr
          obtain ⟨m, hm, hfile, hnew⟩ := h.brought r hr hor
          refine ⟨m, hs.mem_of_ne hm ?_, hfile, hnew⟩
          rw [hfile]
          exact hrp
      other := by
        intro m hm hmask mfe hsome
        exact h.other m (hmem m hm (by rw [hmask]; decide)) hmask mfe hsome }

/-- A file is brought again that an event in the queue has ended. -/
theorem QueueOk.renewed (h : QueueOk start here written gone queue) (hs : Struck p queue queue')
    (hdel : ∃ m ∈ queue, m.file = p ∧ m.e.mask.isDel = true)
    (hleft : ∀ m ∈ queue', m.file = p → m.e.mask.isDel = false) (hpad : m.e.Padded)
    (hfile : m.file = p) (hmask : m.e.mask = .modify)
    (hw : ∀ r, r ≠ p → (r ∈ written' ↔ r ∈ written)) (hg : ∀ r, r ≠ p → (r ∈ gone' ↔ r ∈ gone)) :
    QueueOk start (Function.update here p true) written' gone' (queue' ++ [m]) := by
  obtain ⟨d, hd, hdfile, hddel⟩ := hdel
  obtain ⟨hstart, htaken, -⟩ := h.form.ended d hd hddel
  rw [hdfile] at hstart htaken
  have hfrom : ∀ x ∈ queue, x.file = p → x.e.mask = .movedTo → x.fromEvent = none := by
    intro x hx hxp hxmask
    have hcon := h.form.apart x hx d hd (hxp.trans hdfile.symm) (by rw [hxmask]; rfl)
    rw [hddel] at hcon
    cases hcon
  have hnomove : m.e.mask = .movedTo → m.fromEvent = none := by
    intro hmoved
    rw [hmask] at hmoved
    cases hmoved
  have hform := h.form.struck (b := true) hs hfrom fun _ => ⟨hleft, hstart, htaken⟩
  have htaken' : ¬ TakenAway p queue' := by
    rintro ⟨x, hx, hxmask, hrest⟩
    rcases hs.mem hx with hx | hnone
    · exact htaken ⟨x, hx, hxmask, hrest⟩
    · rw [hnone] at hxmask
      cases hxmask
  have hnew : m.e.mask.isNew ≠ true := by rw [hmask]; decide
  have hform' := hform.append (b := true) (m := m) (p := p) hpad hfile hnomove
    (fun hc => by rw [hmask] at hc; cases hc) (fun hn => absurd hn hnew)
    (fun hd => by rw [hmask] at hd; cases hd) (fun _ => hleft) (by
      rintro - (hf | ht)
      · rw [hstart] at hf
        cases hf
      · exact absurd ht htaken')
  rw [Function.update_idem] at hform'
  refine h.of_append (fun r hr => hs.pending hfrom hr) hform' hfile hnomove hw hg ?_ (fun _ => trivial)
    (fun _ => trivial) fun _ => trivial
  have hsingle : pending p [m] = [.change] := by
    rw [pending_singleton]
    unfold MonitorEvent.touches
    rw [hmask, hfile]
    simp
  rw [hsingle]
  apply Accounted.reappear hstart
  rw [drop_mem_pending]
  rintro (⟨x, hx, hxp, hxdel⟩ | ht)
  · rw [hleft x hx hxp] at hxdel
    cases hxdel
  · exact htaken' ht

/-- The end of `p` undoes no move that takes a file away, and none that brings a file to where one
was known. -/
def Undoable (start : Int × Text → Bool) (p : Int × Text) (queue : List MonitorEvent) : Prop :=
  ∀ m ∈ queue, m.file = p → m.e.mask = .movedTo →
    m.fromEvent = none ∧ (start p = true → TakenAway p queue)

/-- A file that an event in the queue has brought goes again. -/
theorem QueueOk.ended (h : QueueOk start here written gone queue) (hs : Struck p queue queue')
    (hnew : ∃ m ∈ queue, m.file = p ∧ m.e.mask.isNew = true) (hundo : Undoable start p queue) :
    QueueOk start (Function.update here p false) written (insert p gone) queue' := by
  have hfrom : ∀ x ∈ queue, x.file = p → x.e.mask = .movedTo → x.fromEvent = none :=
    fun x hx hxp hmask => (hundo x hx hxp hmask).1
  have hform : QueueForm start (Function.update here p false) queue' :=
    h.form.struck hs hfrom fun hb => absurd hb (by decide)
  refine ⟨hform, fun r => ?_, fun m hm hmask hr => ?_⟩
  · by_cases hrp : r = p
    · subst hrp
      rw [Function.update_self]
      apply Accounted.dropped
      intro hstart
      -- the file was known and has been brought again, so it had been moved away
      have htaken : TakenAway r queue := by
        obtain ⟨m, hm, hmfile, hmnew⟩ := hnew
        rcases hmask : m.e.mask
        case create => exact hmfile ▸ h.form.made m hm hmask (hmfile ▸ hstart)
        case movedTo => exact (hundo m hm hmfile hmask).2 hstart
        all_goals
          rw [hmask] at hmnew
          cases hmnew
      obtain ⟨m, hm, hmask, mfe, hsome, hfile⟩ := htaken
      refine drop_mem_pending.2 (.inr ⟨m, hs.mem_of_ne hm fun hp => ?_, hmask, mfe, hsome, hfile⟩)
      rw [hfrom m hm hp hmask] at hsome
      cases hsome
    · rw [Function.update_of_ne hrp, hs.pending hfrom hrp]
      exact (h.accounted r).mono id fun hg => (Set.mem_insert_iff.1 hg).resolve_left hrp
  · rcases hs.getLast hm with hm' | hnone
    · have hne : m.file ≠ p := by
        intro heq
        rw [heq, Function.update_self] at hr
        cases hr
      rw [Function.update_of_ne hne] at hr
      rw [hs.pending hfrom hne]
      exact h.last m hm' hmask hr
    · rw [hnone] at hmask
      rcases hmask with hmask | hmask
      · cases hmask
      · cases hmask

/-- The event that a file has been moved away is claimed by the one that it has been moved to. -/
theorem QueueOk.claimed {f m : MonitorEvent} {mfe : MovedFromEvent}
    (h : QueueOk start here written gone (queue ++ [f])) (hf : f.e.mask = .movedFrom)
    (hmfe : mfe.e.file = f.file) (hne : f.file ≠ p)
    (hx : ∀ x ∈ queue, x.file = f.file → x.e.mask.isDel = false)
    (hp : ∀ x ∈ queue, x.file = p → x.e.mask.isDel = false) (hpad : m.e.Padded) (hfile : m.file = p)
    (hmask : m.e.mask = .movedTo) (hsome : m.fromEvent = some mfe)
    (hw : ∀ r, r ≠ p → (r ∈ written' ↔ r ∈ written)) (hwp : p ∈ written' → here p = true)
    (hg : ∀ r, r ≠ p → (r ∈ gone' ↔ r ∈ gone)) (hgp : p ∈ gone' → p ∈ gone ∨ here p = false) :
    QueueOk start (Function.update here p true) written' gone' (queue ++ [f.strike, m]) := by
  have hfdel : f.e.mask.isDel = true := by rw [hf]; rfl
  obtain ⟨hfstart, hftaken, hfhere⟩ := h.form.ended f (List.mem_append_right _
    (List.mem_singleton_self f)) hfdel
  have hmem : ∀ x ∈ queue ++ [f.strike, m], x.e.mask ≠ .none → x ∈ queue ∨ x = m := by
    intro x hx hne
    simp only [List.mem_append, List.mem_cons, List.not_mem_nil, or_false] at hx
    rcases hx with hx | rfl | rfl
    · exact .inl hx
    · exact absurd rfl hne
    · exact .inr rfl
  have hold : ∀ x ∈ queue, x ∈ queue ++ [f] := fun x hx => List.mem_append_left _ hx
  have hin : ∀ x ∈ queue, x ∈ queue ++ [f.strike, m] := fun x hx => List.mem_append_left _ hx
  have hmin : m ∈ queue ++ [f.strike, m] := by simp
  have htaken : ∀ r, TakenAway r (queue ++ [f.strike, m]) ↔ r = f.file ∨ TakenAway r (queue ++ [f]) := by
    intro r
    constructor
    · rintro ⟨x, hx, hxmask, mfe', hxsome, hxfile⟩
      rcases hmem x hx (by rw [hxmask]; decide) with hx | rfl
      · exact .inr ⟨x, hold x hx, hxmask, mfe', hxsome, hxfile⟩
      · rw [hsome] at hxsome
        obtain rfl := Option.some.inj hxsome
        exact .inl (hxfile.symm.trans hmfe)
    · rintro (rfl | ⟨x, hx, hxmask, hxrest⟩)
      · exact ⟨m, hmin, hmask, mfe, hsome, hmfe⟩
      · rcases List.mem_append.1 hx with hx | hx
        · exact ⟨x, hin x hx, hxmask, hxrest⟩
        · rw [List.mem_singleton.1 hx, hf] at hxmask
          cases hxmask
  have hpend : ∀ r, pending r (queue ++ [f.strike, m]) =
      if r = p then pending p queue ++ [.change] else pending r (queue ++ [f]) := by
    intro r
    have hstrike : pending r [f.strike, m] = touchesAt r m.touches := by
      rw [pending_cons, touches_strike, touchesAt_nil, List.nil_append, pending_singleton]
    have hm : m.touches = [(p, .change), (f.file, .drop)] := by
      unfold MonitorEvent.touches
      rw [hmask, hsome, hfile, ← hmfe]
    rw [pending_append, pending_append, hstrike, hm, pending_singleton, touches_movedFrom hf]
    by_cases hrp : r = p
    · rw [if_pos hrp, hrp, touchesAt_cons_self, touchesAt_cons_of_ne hne, touchesAt_nil]
    · rw [if_neg hrp, touchesAt_cons_of_ne (Ne.symm hrp)]
  have hpq : pending p (queue ++ [f]) = pending p queue := by
    rw [pending_append, pending_singleton, touches_movedFrom hf, touchesAt_cons_of_ne hne, touchesAt_nil,
      List.append_nil]
  have hacc : Accounted (start p) true (here p = true) (p ∈ gone ∨ here p = false)
      (pending p queue ++ [.change]) := by
    have hbefore := h.accounted p
    rw [hpq] at hbefore
    rcases hhere : here p with _ | _
    · rw [hhere] at hbefore
      exact (hbefore.appear (.inr (.inl rfl))).mono (fun hc => by cases hc) fun _ => trivial
    · rw [hhere] at hbefore
      exact hbefore.change.mono (fun _ => trivial) fun hor => hor.resolve_right (by decide)
  refine ⟨?_, fun r => ?_, ?_⟩
  · exact
      { padded := by
          intro x hx
          simp only [List.mem_append, List.mem_cons, List.not_mem_nil, or_false] at hx
          rcases hx with hx | rfl | rfl
          · exact h.form.padded x (hold x hx)
          · exact h.form.padded f (List.mem_append_right _ (List.mem_singleton_self f))
          · exact hpad
        made := by
          intro x hx hxmask hstart
          rw [htaken]
          rcases hmem x hx (by rw [hxmask]; decide) with hx | rfl
          · exact .inr (h.form.made x (hold x hx) hxmask hstart)
          · rw [hmask] at hxmask
            cases hxmask
        apart := by
          intro x hx y hy hxy hxnew
          rw [← Bool.not_eq_true]
          intro hydel
          have hxne : x.e.mask ≠ .none := by
            intro hnone
            rw [hnone] at hxnew
            cases hxnew
          have hyne : y.e.mask ≠ .none := by
            intro hnone
            rw [hnone] at hydel
            cases hydel
          rcases hmem y hy hyne with hyq | rfl
          · rcases hmem x hx hxne with hxq | rfl
            · rw [h.form.apart x (hold x hxq) y (hold y hyq) hxy hxnew] at hydel
              cases hydel
            · rw [hp y hyq (hxy.symm.trans hfile)] at hydel
              cases hydel
          · rw [hmask] at hydel
            cases hydel
        ended := by
          intro x hxin hxdel
          have hxne : x.e.mask ≠ .none := by
            intro hnone
            rw [hnone] at hxdel
            cases hxdel
          rcases hmem x hxin hxne with hxq | rfl
          · obtain ⟨hst, ht, hh⟩ := h.form.ended x (hold x hxq) hxdel
            have hxf : x.file ≠ f.file := by
              intro heq
              rw [hx x hxq heq] at hxdel
              cases hxdel
            have hxp : x.file ≠ p := by
              intro heq
              rw [hp x hxq heq] at hxdel
              cases hxdel
            rw [htaken, Function.update_of_ne hxp]
            exact ⟨hst, fun hor => hor.elim hxf ht, hh⟩
          · rw [hmask] at hxdel
            cases hxdel
        brought := by
          intro r hr hor
          by_cases hrp : r = p
          · exact ⟨m, hmin, hfile.trans hrp.symm, by rw [hmask]; rfl⟩
          · rw [Function.update_of_ne hrp] at hr
            have hrf : r ≠ f.file := by
              rintro rfl
              rw [hfhere] at hr
              cases hr
            rw [htaken] at hor
            obtain ⟨x, hxin, hxfile, hxnew⟩ := h.form.brought r hr
              (hor.imp_right fun ht => ht.resolve_left hrf)
            rcases List.mem_append.1 hxin with hxq | hxf
            · exact ⟨x, hin x hxq, hxfile, hxnew⟩
            · rw [List.mem_singleton.1 hxf, hf] at hxnew
              cases hxnew
        other := by
          intro x hxin hxmask mfe' hxsome
          rcases hmem x hxin (by rw [hxmask]; decide) with hxq | rfl
          · exact h.form.other x (hold x hxq) hxmask mfe' hxsome
          · rw [hsome] at hxsome
            obtain rfl := Option.some.inj hxsome
            rw [hmfe, hfile]
            exact hne }
  · rw [hpend]
    by_cases hrp : r = p
    · rw [if_pos hrp, hrp, Function.update_self]
      exact hacc.mono hwp hgp
    · rw [if_neg hrp, Function.update_of_ne hrp]
      exact (h.accounted r).mono (hw r hrp).1 (hg r hrp).1
  · intro x hxl hxmask
    rw [show queue ++ [f.strike, m] = (queue ++ [f.strike]) ++ [m] by simp, List.getLast?_concat] at hxl
    obtain rfl := Option.some.inj hxl
    rw [hmask] at hxmask
    rcases hxmask with hxmask | hxmask
    · cases hxmask
    · cases hxmask

end

/-! ### The events -/

/-- What `queue_event` does with an event that is to be queued or not. -/
def queueRest (mon : Monitor) (res : List MonitorEvent × InotifyEvent × Bool) : Monitor :=
  let mon := { mon with eventList := res.1 }
  if res.2.2 then mon
  else if res.2.1.mask = .movedTo then
    insertEvent (checkFromEvents mon res.2.1).1 (checkFromEvents mon res.2.1).2 res.2.1
  else insertEvent mon none res.2.1

/-- The queue accounts for what has happened to the files, and the renames so far have cookies below
`next`. -/
structure MonitorInv (start here : Int × Text → Bool) (written gone : Set (Int × Text)) (next : ℕ)
    (mon : Monitor) : Prop where
  queue : QueueOk start here written gone mon.eventList
  moves : ∀ m ∈ mon.eventList, m.e.mask = .movedTo → m.e.cookie < next
  froms : ∀ mfe ∈ mon.movedFromList, mfe.e.cookie < next

section

variable {start here : Int × Text → Bool} {written gone : Set (Int × Text)} {next cookie : ℕ}
  {mon : Monitor} {p : Int × Text} {mask : Mask}

/-- An event is the last one of the queue once more, or it may undo some events and is queued or
not. -/
theorem queueEvent_cases (hpad : ∀ m ∈ mon.eventList, m.e.Padded) (hp : Shown p) :
    ((∃ m, mon.eventList.getLast? = some m ∧ m.e = fileEvent p mask cookie) ∧
        queueEvent mon (fileEvent p mask cookie) = mon) ∨
      ∃ res, Undoes (fileEvent p mask cookie) mon.eventList res ∧
        queueEvent mon (fileEvent p mask cookie) = queueRest mon res := by
  unfold queueEvent
  rw [skipEvent_fileEvent hp, if_neg Bool.false_ne_true]
  by_cases hdup : (mon.eventList.getLast?.any fun m => eventcmp m.e (fileEvent p mask cookie)) = true
  · rw [if_pos hdup]
    obtain ⟨m, hm, hcmp⟩ := (Option.any_eq_true _ _).1 hdup
    have hmem := List.mem_of_getLast? hm
    exact .inl ⟨⟨m, hm, eq_of_eventcmp (hpad m hmem) hcmp⟩, rfl⟩
  · rw [if_neg hdup]
    exact .inr ⟨_, ephemeralEvent_undoes hpad fileEvent_padded, rfl⟩

/-- An event that is nobody's second half goes to the end. -/
theorem queueRest_insert {queue : List MonitorEvent} {e : InotifyEvent}
    (hto : e.mask ≠ .movedTo) (hfrom : e.mask ≠ .movedFrom) :
    queueRest mon (queue, e, false) = { mon with eventList := queue ++ [⟨none, e⟩] } := by
  unfold queueRest insertEvent
  simp [hto, hfrom]

/-- The file is modified. -/
theorem MonitorInv.modified (h : MonitorInv start here written gone next mon) (hp : here p = true)
    (hshown : Shown p) (hmask : mask = .modify ∨ mask = .attrib) :
    MonitorInv start here (insert p written) gone next (queueEvent mon (fileEvent p mask 0)) := by
  have hwritten : ∀ r, r ≠ p → (r ∈ insert p written ↔ r ∈ written) := fun r hr => by
    rw [Set.mem_insert_iff, or_iff_right hr]
  rcases queueEvent_cases h.queue.form.padded hshown with ⟨⟨m, hm, hme⟩, hrun⟩ | ⟨res, hundo, hrun⟩
  · -- the last event says the same
    rw [hrun]
    have hmp : m.file = p := by
      unfold MonitorEvent.file
      rw [hme]
      rfl
    refine ⟨⟨h.queue.form, fun r => ?_, h.queue.last⟩, h.moves, h.froms⟩
    have hr := h.queue.accounted r
    by_cases hrp : r = p
    · subst hrp
      have hdirty := h.queue.last m hm (by rw [hme]; exact hmask) (by rw [hmp]; exact hp)
      rw [hmp] at hdirty
      exact ⟨hr.present, hr.absent, fun _ _ => hdirty, hr.lost⟩
    · exact hr.mono (hwritten r hrp).1 id
  · have hnew : mask.isNew ≠ true := by rcases hmask with rfl | rfl <;> decide
    have hdel : mask.isDel ≠ true := by rcases hmask with rfl | rfl <;> decide
    have hto : mask ≠ .movedTo := by rcases hmask with rfl | rfl <;> decide
    have hfrom : mask ≠ .movedFrom := by rcases hmask with rfl | rfl <;> decide
    have hcreate : mask ≠ .create := by rcases hmask with rfl | rfl <;> decide
    cases hundo with
    | ended hd => exact absurd hd hdel
    | renewed hn => exact absurd hn hnew
    | nothing =>
      rw [hrun, queueRest_insert hto hfrom]
      have hhere : Function.update here p true = here := by
        rw [← hp]
        exact Function.update_eq_self p here
      have hnodel : ∀ x ∈ mon.eventList, x.file = p → x.e.mask.isDel = false := by
        intro x hx hxp
        rw [← Bool.not_eq_true]
        intro hxdel
        have hxhere := (h.queue.form.ended x hx hxdel).2.2
        rw [hxp, hp] at hxhere
        cases hxhere
      have hform := h.queue.form.append (b := true) (p := p)
        (m := ⟨none, fileEvent p mask 0⟩) fileEvent_padded rfl (fun hc => absurd hc hto)
        (fun hc => absurd hc hcreate) (fun hn => absurd hn hnew) (fun hd => absurd hd hdel)
        (fun _ => hnodel) fun _ hor => .inl (h.queue.form.brought p hp hor)
      have hacc := h.queue.accounted p
      rw [hp] at hacc
      have hsingle : pending p [(⟨none, fileEvent p mask 0⟩ : MonitorEvent)] = [.change] := by
        rw [pending_singleton]
        rcases hmask with rfl | rfl
        · exact touchesAt_cons_self []
        · exact touchesAt_cons_self []
      have hok := h.queue.of_append (fun r _ => rfl) hform rfl (fun hc => absurd hc hto) hwritten
        (fun r _ => .rfl) (hsingle ▸ hacc.change) (fun _ => trivial) id fun _ => trivial
      rw [hhere] at hok
      refine ⟨hok, ?_, h.froms⟩
      intro x hx hxto
      rcases List.mem_append.1 hx with hx | hx
      · exact h.moves x hx hxto
      · rw [List.mem_singleton.1 hx] at hxto
        exact absurd hxto hto

/-- A file is created. -/
theorem MonitorInv.created (h : MonitorInv start here written gone next mon) (hp : here p = false)
    (hshown : Shown p) : MonitorInv start (Function.update here p true) (written \ {p}) gone next
      (queueEvent mon (fileEvent p .create 0)) := by
  have hwritten : ∀ r, r ≠ p → (r ∈ written \ {p} ↔ r ∈ written) := fun r hr => by
    rw [Set.mem_sdiff_singleton, and_iff_left hr]
  have hnotin : p ∉ written \ {p} := fun hc => hc.2 rfl
  have hnoto : Mask.create ≠ .movedTo := by decide
  have hacc := h.queue.accounted p
  rw [hp] at hacc
  rcases queueEvent_cases h.queue.form.padded hshown with ⟨⟨m, hm, hme⟩, hrun⟩ | ⟨res, hundo, hrun⟩
  · -- the last event says the same: the file has been brought already
    rw [hrun]
    have hmem := List.mem_of_getLast? hm
    have hmp : m.file = p := by
      unfold MonitorEvent.file
      rw [hme]
      rfl
    obtain ⟨queue, hqueue⟩ := List.getLast?_eq_some_iff.1 hm
    have hsingle : pending p [m] = [.look] := by
      rw [pending_singleton, show m = ⟨m.fromEvent, fileEvent p .create 0⟩ by rw [← hme]]
      exact touchesAt_cons_self []
    have hend : pending p mon.eventList = pending p queue ++ [.look] := by
      rw [hqueue, pending_append, hsingle]
    refine ⟨⟨h.queue.form.here_of_new hmem hmp (by rw [hme]; rfl), fun r => ?_, ?_⟩, h.moves, h.froms⟩
    · by_cases hrp : r = p
      · subst hrp
        have hbefore : Accounted (start r) false False True (pending r queue) := by
          apply Accounted.dropped
          intro hstart
          have hdrop := hacc.absent rfl hstart
          rw [hend] at hdrop
          simpa using hdrop
        rw [Function.update_self, hend]
        exact (hbefore.appear (.inl rfl)).mono (fun hc => hnotin hc) fun _ => trivial
      · rw [Function.update_of_ne hrp]
        exact (h.queue.accounted r).mono (hwritten r hrp).1 id
    · intro x hx hxmask
      rw [hm] at hx
      obtain rfl := Option.some.inj hx
      rw [hme] at hxmask
      rcases hxmask with hxmask | hxmask
      · cases hxmask
      · cases hxmask
  · cases hundo with
    | ended hd => cases hd
    | renewed hn hdel hstruck hleft =>
      rw [hrun, queueRest_insert (by decide : Mask.modify ≠ .movedTo)
        (by decide : Mask.modify ≠ .movedFrom)]
      refine ⟨h.queue.renewed hstruck hdel hleft fileEvent_padded rfl rfl hwritten fun r _ => .rfl, ?_,
        h.froms⟩
      intro x hx hxto
      rcases List.mem_append.1 hx with hx | hx
      · rcases hstruck.mem hx with hx | hnone
        · exact h.moves x hx hxto
        · rw [hnone] at hxto
          cases hxto
      · rw [List.mem_singleton.1 hx] at hxto
        cases hxto
    | nothing _ hnew =>
      rw [hrun, queueRest_insert hnoto (by decide : Mask.create ≠ .movedFrom)]
      have hnodel : ∀ x ∈ mon.eventList, x.file = p → x.e.mask.isDel = false := hnew rfl
      have hform := h.queue.form.append (b := true) (p := p) (m := ⟨none, fileEvent p .create 0⟩)
        fileEvent_padded rfl (fun hc => absurd hc hnoto) (fun _ hstart => by
          rcases drop_mem_pending.1 (hacc.absent rfl hstart) with ⟨x, hx, hxp, hxdel⟩ | ht
          · rw [hnodel x hx hxp] at hxdel
            cases hxdel
          · exact ht)
        (fun _ => hnodel) (fun hd => by cases hd) (fun _ => hnodel) fun _ _ => .inr rfl
      have hsingle : pending p [(⟨none, fileEvent p .create 0⟩ : MonitorEvent)] = [.look] := by
        rw [pending_singleton]
        exact touchesAt_cons_self []
      have hok := h.queue.of_append (fun r _ => rfl) hform rfl (fun hc => absurd hc hnoto) hwritten
        (fun r _ => .rfl) (hsingle ▸ hacc.appear (.inl rfl)) hnotin (fun _ => trivial) fun hc => by
          rcases hc with hc | hc
          · cases hc
          · cases hc
      refine ⟨hok, ?_, h.froms⟩
      intro x hx hxto
      rcases List.mem_append.1 hx with hx | hx
      · exact h.moves x hx hxto
      · rw [List.mem_singleton.1 hx] at hxto
        cases hxto

theorem Mask.isDel_iff {mask : Mask} : mask.isDel = true ↔ mask = .delete ∨ mask = .movedFrom := by
  cases mask <;> simp [Mask.isDel]

/-- What the queue is like after the event that ends a file: either the list of moved files is as it
was, or the event is at the end of both. -/
structure FileEnded (start here : Int × Text → Bool) (written gone : Set (Int × Text)) (next : ℕ)
    (mon : Monitor) (e : InotifyEvent) (mon' : Monitor) : Prop where
  queue : QueueOk start (Function.update here e.file false) written (insert e.file gone) mon'.eventList
  moves : ∀ m ∈ mon'.eventList, m.e.mask = .movedTo → m.e.cookie < next
  froms : mon'.movedFromList = mon.movedFromList ∨ (e.mask = .movedFrom ∧
    mon' = ⟨mon.eventList ++ [⟨some ⟨mon.eventList.length, e⟩, e⟩],
      ⟨mon.eventList.length, e⟩ :: mon.movedFromList⟩)

/-- A file goes. -/
theorem MonitorInv.removed (h : MonitorInv start here written gone next mon) (hp : here p = true)
    (hshown : Shown p) (hmask : mask.isDel = true) (hundo : Undoable start p mon.eventList)
    (cookie : ℕ) : FileEnded start here written gone next mon (fileEvent p mask cookie)
      (queueEvent mon (fileEvent p mask cookie)) := by
  have hnodel : ∀ x ∈ mon.eventList, x.file = p → x.e.mask.isDel = false := by
    intro x hx hxp
    rw [← Bool.not_eq_true]
    intro hxdel
    have hxhere := (h.queue.form.ended x hx hxdel).2.2
    rw [hxp, hp] at hxhere
    cases hxhere
  have hto : mask ≠ .movedTo := by
    rintro rfl
    cases hmask
  have hcreate : mask ≠ .create := by
    rintro rfl
    cases hmask
  have hnotnew : mask.isNew = false := Mask.not_new_of_del hmask
  have hgone : ∀ r, r ≠ p → (r ∈ insert p gone ↔ r ∈ gone) := fun r hr => by
    rw [Set.mem_insert_iff, or_iff_right hr]
  rcases @queueEvent_cases cookie mon p mask h.queue.form.padded hshown with
    ⟨⟨m, hm, hme⟩, hrun⟩ | ⟨res, hres, hrun⟩
  · have hcon := hnodel m (List.mem_of_getLast? hm) (by unfold MonitorEvent.file; rw [hme]; rfl)
    rw [hme, fileEvent_mask, hmask] at hcon
    cases hcon
  · cases hres with
    | renewed hn =>
      rw [fileEvent_mask, hnotnew] at hn
      cases hn
    | @ended queue' _ hnew hstruck =>
      rw [hrun]
      refine ⟨h.queue.ended hstruck hnew hundo, ?_, .inl rfl⟩
      intro x hx hxto
      rcases hstruck.mem hx with hx | hnone
      · exact h.moves x hx hxto
      · rw [hnone] at hxto
        cases hxto
    | nothing hnonew _ =>
      have hnonew := hnonew hmask
      have hnone : ¬ (start p = false ∨ TakenAway p mon.eventList) := by
        intro hor
        obtain ⟨x, hx, hxp, hxnew⟩ := h.queue.form.brought p hp hor
        rw [hnonew x hx hxp] at hxnew
        cases hxnew
      rw [not_or, Bool.not_eq_false] at hnone
      -- whatever the event points to, it is a removal
      have hok : ∀ f, QueueOk start (Function.update here p false) written (insert p gone)
          (mon.eventList ++ [⟨f, fileEvent p mask cookie⟩]) := by
        intro f
        have hform := h.queue.form.append (b := false) (p := p) (m := ⟨f, fileEvent p mask cookie⟩)
          fileEvent_padded rfl (fun hc => absurd hc hto) (fun hc => absurd hc hcreate)
          (fun hn => by rw [fileEvent_mask, hnotnew] at hn; cases hn)
          (fun _ => ⟨hnonew, hnone.1, hnone.2, rfl⟩) (fun hc => by cases hc) fun hc => by cases hc
        have hsingle : pending p [(⟨f, fileEvent p mask cookie⟩ : MonitorEvent)] = [.drop] := by
          rw [pending_singleton]
          rcases Mask.isDel_iff.1 hmask with rfl | rfl
          · exact touchesAt_cons_self []
          · exact touchesAt_cons_self []
        have hacc : Accounted (start p) false True True (pending p mon.eventList ++
            pending p [(⟨f, fileEvent p mask cookie⟩ : MonitorEvent)]) := by
          rw [hsingle]
          exact .drop
        exact h.queue.of_append (fun r _ => rfl) hform rfl (fun hc => absurd hc hto) (fun r _ => .rfl)
          hgone hacc (fun _ => trivial) (fun _ => trivial) fun _ => trivial
      have hmoves : ∀ f, ∀ x ∈ mon.eventList ++ [(⟨f, fileEvent p mask cookie⟩ : MonitorEvent)],
          x.e.mask = .movedTo → x.e.cookie < next := by
        intro f x hx hxto
        rcases List.mem_append.1 hx with hx | hx
        · exact h.moves x hx hxto
        · rw [List.mem_singleton.1 hx] at hxto
          exact absurd hxto hto
      rw [hrun]
      rcases Mask.isDel_iff.1 hmask with rfl | rfl
      · rw [queueRest_insert hto (by decide : Mask.delete ≠ .movedFrom)]
        exact ⟨hok none, hmoves none, .inl rfl⟩
      · have hrest : queueRest mon (mon.eventList, fileEvent p .movedFrom cookie, false) =
            ⟨mon.eventList ++ [⟨some ⟨mon.eventList.length, fileEvent p .movedFrom cookie⟩,
              fileEvent p .movedFrom cookie⟩],
            ⟨mon.eventList.length, fileEvent p .movedFrom cookie⟩ :: mon.movedFromList⟩ := rfl
        rw [hrest]
        exact ⟨hok _, hmoves _, .inr ⟨rfl, rfl⟩⟩

/-- The files whose content is known to have changed when a file has been moved to `p`. -/
def writtenAt (here : Int × Text → Bool) (p : Int × Text) (written : Set (Int × Text)) :
    Set (Int × Text) :=
  if here p then insert p written else written \ {p}

theorem mem_writtenAt_of_ne {r : Int × Text} (hr : r ≠ p) :
    r ∈ writtenAt here p written ↔ r ∈ written := by
  unfold writtenAt
  split
  · rw [Set.mem_insert_iff, or_iff_right hr]
  · rw [Set.mem_sdiff_singleton, and_iff_left hr]

theorem here_of_mem_writtenAt (h : p ∈ writtenAt here p written) : here p = true := by
  unfold writtenAt at h
  split at h
  · next hp => exact hp
  · exact absurd rfl h.2

theorem modify_last {α : Type} (l : List α) (a : α) (f : α → α) :
    (l ++ [a]).modify l.length f = l ++ [f a] := by
  induction l with
  | nil => rfl
  | cons b l ih => rw [List.cons_append, List.length_cons, List.modify_succ_cons, ih, List.cons_append]

/-- A file is moved. -/
theorem MonitorInv.moved {x : Int × Text} (h : MonitorInv start here written gone next mon)
    (hx : here x = true) (hxp : x ≠ p) (hxs : Shown x) (hps : Shown p)
    (hundo : Undoable start x mon.eventList) :
    MonitorInv start (Function.update (Function.update here x false) p true) (writtenAt here p written)
      (insert x gone) (next + 1)
      (queueEvent (queueEvent mon (fileEvent x .movedFrom next)) (fileEvent p .movedTo next)) := by
  have hrem := h.removed hx hxs (rfl : Mask.movedFrom.isDel = true) hundo next
  set mon' := queueEvent mon (fileEvent x .movedFrom next) with hmon'
  have hq : QueueOk start (Function.update here x false) written (insert x gone) mon'.eventList :=
    hrem.queue
  have hherep : Function.update here x false p = here p := Function.update_of_ne hxp.symm _ _
  have hw : ∀ r, r ≠ p → (r ∈ writtenAt here p written ↔ r ∈ written) := fun r hr =>
    mem_writtenAt_of_ne hr
  have hfroms : ∀ mfe ∈ mon'.movedFromList, mfe.e.cookie < next + 1 := by
    intro mfe hmfe
    rcases hrem.froms with hsame | ⟨-, heq⟩
    · rw [hsame] at hmfe
      exact Nat.lt_succ_of_lt (h.froms mfe hmfe)
    · rw [heq] at hmfe
      rcases List.mem_cons.1 hmfe with rfl | hmfe
      · exact Nat.lt_succ_self next
      · exact Nat.lt_succ_of_lt (h.froms mfe hmfe)
  rcases @queueEvent_cases next mon' p .movedTo hq.form.padded hps with
    ⟨⟨m, hm, hme⟩, hrun⟩ | ⟨res, hres, hrun⟩
  · -- the cookie is new
    have hlt := hrem.moves m (List.mem_of_getLast? hm) (by rw [hme]; rfl)
    rw [hme] at hlt
    exact absurd hlt (Nat.lt_irrefl next)
  · cases hres with
    | ended hd => cases hd
    | @renewed queue' _ hdel hstruck hleft =>
      rw [hrun, queueRest_insert (by decide : Mask.modify ≠ .movedTo)
        (by decide : Mask.modify ≠ .movedFrom)]
      refine ⟨hq.renewed hstruck hdel hleft fileEvent_padded rfl rfl hw fun r _ => .rfl, ?_, hfroms⟩
      intro y hy hyto
      rcases List.mem_append.1 hy with hy | hy
      · rcases hstruck.mem hy with hy | hnone
        · exact Nat.lt_succ_of_lt (hrem.moves y hy hyto)
        · rw [hnone] at hyto
          cases hyto
      · rw [List.mem_singleton.1 hy] at hyto
        cases hyto
    | nothing _ hnew =>
      have hnodel : ∀ y ∈ mon'.eventList, y.file = p → y.e.mask.isDel = false := hnew rfl
      rw [hrun]
      rcases hrem.froms with hsame | ⟨-, heq⟩
      · -- the event that the file was moved away has not been queued
        have hfind : mon'.movedFromList.find? (·.e.cookie = next) = none := by
          rw [List.find?_eq_none]
          intro mfe hmfe
          rw [hsame] at hmfe
          have hlt := h.froms mfe hmfe
          simp only [decide_eq_true_eq]
          omega
        have hrest : queueRest mon' (mon'.eventList, fileEvent p .movedTo next, false) =
            { mon' with eventList := mon'.eventList ++ [⟨none, fileEvent p .movedTo next⟩] } := by
          unfold queueRest checkFromEvents
          simp only [Bool.false_eq_true, if_false, fileEvent_mask, if_true]
          rw [show (fileEvent p .movedTo next).cookie = next from rfl, hfind]
          rfl
        rw [hrest]
        have hform := hq.form.append (b := true) (p := p) (m := ⟨none, fileEvent p .movedTo next⟩)
          fileEvent_padded rfl (fun _ => rfl) (fun hc => by cases hc) (fun _ => hnodel)
          (fun hd => by cases hd) (fun _ => hnodel) fun _ _ => .inr rfl
        have hsingle : pending p [(⟨none, fileEvent p .movedTo next⟩ : MonitorEvent)] =
            [.look, .change] := by
          rw [pending_singleton]
          change touchesAt p [(p, .look), (p, .change)] = _
          rw [touchesAt_cons_self, touchesAt_cons_self, touchesAt_nil]
        have hacc : Accounted (start p) true (here p = true) (p ∈ insert x gone)
            (pending p mon'.eventList ++ pending p [(⟨none, fileEvent p .movedTo next⟩ : MonitorEvent)]) := by
          rw [hsingle]
          have hbefore := hq.accounted p
          rw [hherep] at hbefore
          rcases hhere : here p with _ | _
          · rw [hhere] at hbefore
            exact (hbefore.appear (.inr (.inr rfl))).mono (fun hc => by cases hc) fun _ => trivial
          · rw [hhere] at hbefore
            exact (hbefore.replace (.inr rfl)).mono (fun _ => trivial) id
        refine ⟨hq.of_append (fun r _ => rfl) hform rfl (fun _ => rfl) hw (fun r _ => .rfl) hacc
          here_of_mem_writtenAt id fun hc => ?_, ?_, hfroms⟩
        · rcases hc with hc | hc
          · cases hc
          · cases hc
        · intro y hy hyto
          rcases List.mem_append.1 hy with hy | hy
          · exact Nat.lt_succ_of_lt (hrem.moves y hy hyto)
          · rw [List.mem_singleton.1 hy]
            exact Nat.lt_succ_self next
      · -- it is the last event of the queue
        let e := fileEvent x .movedFrom next
        let self : MovedFromEvent := ⟨mon.eventList.length, e⟩
        let f : MonitorEvent := ⟨some self, e⟩
        let m : MonitorEvent := ⟨some self, fileEvent p .movedTo next⟩
        have heq' : mon' = ⟨mon.eventList ++ [f], self :: mon.movedFromList⟩ := heq
        have hrest : queueRest mon' (mon'.eventList, fileEvent p .movedTo next, false) =
            ⟨mon.eventList ++ [f.strike, m], mon.movedFromList⟩ := by
          rw [heq']
          unfold queueRest checkFromEvents
          simp only [Bool.false_eq_true, if_false, fileEvent_mask, if_true]
          have hfind : (self :: mon.movedFromList).find? (fun mfe => decide
              (mfe.e.cookie = (fileEvent p .movedTo next).cookie)) = some self :=
            List.find?_cons_of_pos (decide_eq_true (rfl : next = next))
          rw [hfind]
          unfold insertEvent
          simp only [fileEvent_mask, reduceCtorEq, if_false, List.erase_cons_head]
          rw [modify_last]
          simp [m, f]
        rw [hrest]
        rw [heq'] at hq hnodel
        have hold : ∀ y ∈ mon.eventList, y.file = x → y.e.mask.isDel = false := by
          intro y hy hyx
          rw [← Bool.not_eq_true]
          intro hydel
          have hyhere := (h.queue.form.ended y hy hydel).2.2
          rw [hyx, hx] at hyhere
          cases hyhere
        refine ⟨hq.claimed (f := f) (m := m) rfl rfl hxp hold
          (fun y hy => hnodel y (List.mem_append_left _ hy)) fileEvent_padded rfl rfl rfl hw
          (fun hc => hherep.trans (here_of_mem_writtenAt hc)) (fun r _ => .rfl) .inl, ?_, ?_⟩
        · intro y hy hyto
          simp only [List.mem_append, List.mem_cons, List.not_mem_nil, or_false] at hy
          rcases hy with hy | rfl | rfl
          · exact Nat.lt_succ_of_lt (h.moves y hy hyto)
          · cases hyto
          · exact Nat.lt_succ_self next
        · intro mfe hmfe
          exact Nat.lt_succ_of_lt (h.froms mfe hmfe)

end

end Metatup
