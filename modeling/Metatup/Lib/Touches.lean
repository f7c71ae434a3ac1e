import Mathlib.Data.List.Basic
import Mathlib.Logic.Function.Basic

/-!
# Touches

A queue of pending touches, each of them of one place, is settled some time after the touches were
asked for: a place is then looked at, and what is found there is taken over.

* `settle`, `settleAll`: what becomes of the record of a place whose thing is there, or is not.
* `settleAll_absent`: nothing is recorded of a thing that is gone once its place has been touched.
* `settleAll_present`: a thing is recorded that has not been dropped since it was recorded.
* `Accounted`: the pending touches of a place will leave the right record of it.
* `touchesAt`: the touches of one place in a queue for many.
-/

namespace Metatup.Lib

/-- What is asked for at a place: record a thing that is new, note that a thing has changed, forget a
thing. -/
inductive Touch
  | look | change | drop
  deriving DecidableEq, Repr

/-- The record of a place: a thing is recorded, the recorded one is known to have changed, one has
been forgotten. -/
structure PlaceState where
  there : Bool
  dirty : Bool
  lost : Bool
  deriving DecidableEq, Repr

namespace PlaceState

/-- The record of a place at which a thing is known or is not. -/
def start (there : Bool) : PlaceState := ⟨there, false, false⟩

/-- Record a thing. -/
def found (s : PlaceState) : PlaceState := ⟨true, s.there && s.dirty, s.lost⟩

/-- Record a thing that has changed if it was recorded. -/
def changed (s : PlaceState) : PlaceState := ⟨true, s.there, s.lost⟩

/-- Forget a thing. -/
def dropped (s : PlaceState) : PlaceState := ⟨false, false, s.lost || s.there⟩

end PlaceState

/-- One touch of a place; `here` says that the thing is there. A change of a thing that has gone
means that it is forgotten. -/
def settle (here : Bool) (s : PlaceState) : Touch → PlaceState
  | .look => if here then s.found else s
  | .change => if here then s.changed else s.dropped
  | .drop => s.dropped

/-- All pending touches of a place. -/
def settleAll (here : Bool) (s : PlaceState) (touches : List Touch) : PlaceState :=
  touches.foldl (settle here) s

section

variable {here : Bool} {s : PlaceState} {touches : List Touch} {t : Touch}

@[simp] theorem settleAll_nil : settleAll here s [] = s := rfl

@[simp] theorem settleAll_cons :
    settleAll here s (t :: touches) = settleAll here (settle here s t) touches := rfl

@[simp] theorem settleAll_append (more : List Touch) :
    settleAll here s (touches ++ more) = settleAll here (settleAll here s touches) more :=
  List.foldl_append

/-- What has been lost stays lost. -/
theorem settle_lost (h : s.lost = true) : (settle here s t).lost = true := by
  cases t <;> cases here <;> simp [settle, PlaceState.found, PlaceState.changed, PlaceState.dropped, h]

theorem settleAll_lost (h : s.lost = true) : (settleAll here s touches).lost = true := by
  induction touches generalizing s with
  | nil => exact h
  | cons t touches ih => exact ih (settle_lost h)

/-- A recorded thing is lost when it is dropped. -/
theorem settleAll_drop (hs : s.there = true) (h : Touch.drop ∈ touches) :
    (settleAll here s touches).lost = true := by
  induction touches generalizing s with
  | nil => exact absurd h List.not_mem_nil
  | cons t touches ih =>
    rw [settleAll_cons]
    by_cases hkeep : (settle here s t).there = true
    · apply ih hkeep
      rcases List.mem_cons.1 h with rfl | h
      · simp [settle, PlaceState.dropped] at hkeep
      · exact h
    · apply settleAll_lost
      cases t <;> cases here <;>
        simp_all [settle, PlaceState.found, PlaceState.changed, PlaceState.dropped]

/-- Of a thing that is gone nothing is recorded when nothing was recorded at first or its place has
been touched by more than a look. -/
theorem settleAll_absent (h : s.there = true → ∃ t ∈ touches, t ≠ Touch.look) :
    (settleAll false s touches).there = false := by
  induction touches generalizing s with
  | nil =>
    cases hs : s.there with
    | false => rw [settleAll_nil, hs]
    | true =>
      obtain ⟨t, ht, -⟩ := h hs
      exact absurd ht List.not_mem_nil
  | cons t touches ih =>
    rw [settleAll_cons]
    apply ih
    cases t with
    | look =>
      intro hs
      obtain ⟨u, hu, hne⟩ := h hs
      rcases List.mem_cons.1 hu with rfl | hu
      · exact absurd rfl hne
      · exact ⟨u, hu, hne⟩
    | change => simp [settle, PlaceState.dropped]
    | drop => simp [settle, PlaceState.dropped]

/-- A thing that is there stays recorded as long as it is not dropped. -/
theorem settleAll_present (hs : s.there = true) (h : Touch.drop ∉ touches) :
    (settleAll true s touches).there = true := by
  induction touches generalizing s with
  | nil => exact hs
  | cons t touches ih =>
    rw [List.mem_cons, not_or] at h
    rw [settleAll_cons]
    apply ih _ h.2
    cases t with
    | look => rfl
    | change => rfl
    | drop => exact absurd rfl h.1

end

/-! ### Touches that account for what happened -/

/-- The pending touches of a place account for what happened there: a thing that is there will be
recorded, as changed if it was `written`; one that has gone will be forgotten; and one that was gone
for some time will have been forgotten or will be recorded as changed. -/
structure Accounted (known here : Bool) (written gone : Prop) (touches : List Touch) : Prop where
  present : here = true → (settleAll true (.start known) touches).there = true
  absent : here = false → known = true → Touch.drop ∈ touches
  dirty : here = true → written → (settleAll true (.start known) touches).dirty = true
  lost : here = true → known = true → gone → (settleAll true (.start known) touches).lost = true ∨
    (settleAll true (.start known) touches).dirty = true

namespace Accounted

variable {known here : Bool} {written gone : Prop} {touches : List Touch}

/-- At first nothing has happened. -/
theorem start (known : Bool) : Accounted known known False False [] where
  present h := h
  absent h h' := absurd (h.symm.trans h') (by decide)
  dirty _ h := h.elim
  lost _ _ h := h.elim

/-- The thing has changed. -/
theorem change (h : Accounted known true written gone touches) :
    Accounted known true True gone (touches ++ [.change]) := by
  have hthere := h.present rfl
  have hdirty : (settleAll true (.start known) (touches ++ [.change])).dirty = true := by
    rw [settleAll_append]
    exact hthere
  exact ⟨fun _ => by rw [settleAll_append]; rfl, fun hf => absurd hf (by decide), fun _ _ => hdirty,
    fun _ _ _ => .inr hdirty⟩

/-- The thing has gone. -/
theorem drop : Accounted known false written gone (touches ++ [.drop]) where
  present h := by cases h
  absent _ _ := List.mem_append_right _ (List.mem_singleton_self _)
  dirty h := by cases h
  lost h := by cases h

/-- The thing has gone, and a touch says so already. -/
theorem dropped (h : known = true → Touch.drop ∈ touches) :
    Accounted known false written gone touches where
  present h := by cases h
  absent _ := h
  dirty h := by cases h
  lost h := by cases h

/-- A thing has appeared where none was. -/
theorem appear (h : Accounted known false written gone touches) {more : List Touch}
    (hmore : more = [.look] ∨ more = [.change] ∨ more = [.look, .change]) :
    Accounted known true False True (touches ++ more) := by
  refine ⟨fun _ => ?_, fun hf => absurd hf (by decide), fun _ hw => hw.elim, fun _ hk _ => .inl ?_⟩
  · rw [settleAll_append]
    rcases hmore with rfl | rfl | rfl
    · rfl
    · rfl
    · rfl
  · exact settleAll_drop hk (List.mem_append_left _ (h.absent rfl hk))

/-- A thing has appeared where one was known that nothing has dropped. -/
theorem reappear (hk : known = true) (h : Touch.drop ∉ touches) :
    Accounted known true True True (touches ++ [.change]) := by
  have hdirty : (settleAll true (.start known) (touches ++ [.change])).dirty = true := by
    rw [settleAll_append]
    have hthere : (settleAll true (.start known) touches).there = true :=
      settleAll_present (by rw [hk]; rfl) h
    exact hthere
  exact ⟨fun _ => by rw [settleAll_append]; rfl, fun hf => absurd hf (by decide), fun _ _ => hdirty,
    fun _ _ _ => .inr hdirty⟩

/-- Another thing has taken the place of the thing. -/
theorem replace (h : Accounted known true written gone touches) {more : List Touch}
    (hmore : more = [.change] ∨ more = [.look, .change]) :
    Accounted known true True gone (touches ++ more) := by
  rcases hmore with rfl | rfl
  · exact h.change
  · have hlook : Accounted known true written gone (touches ++ [.look]) := by
      have hthere := h.present rfl
      have heq : settleAll true (.start known) (touches ++ [.look]) =
          settleAll true (.start known) touches := by
        rw [settleAll_append]
        rcases hs : settleAll true (.start known) touches with ⟨there, dirty, lost⟩
        rw [hs] at hthere
        simp only at hthere
        simp [settle, PlaceState.found, hthere]
      exact ⟨fun hr => heq ▸ h.present hr, fun hf => absurd hf (by decide), fun hr hw => heq ▸ h.dirty hr hw,
        fun hr hk hg => heq ▸ h.lost hr hk hg⟩
    simpa using hlook.change

/-- With less to account for. -/
theorem mono {written' gone' : Prop} (h : Accounted known here written gone touches)
    (hw : written' → written) (hg : gone' → gone) : Accounted known here written' gone' touches :=
  ⟨h.present, h.absent, fun hr hw' => h.dirty hr (hw hw'), fun hr hk hg' => h.lost hr hk (hg hg')⟩

end Accounted

/-! ### Many places -/

/-- The touches of one place, out of those of many. -/
def touchesAt {ι : Type*} [DecidableEq ι] (p : ι) (queue : List (ι × Touch)) : List Touch :=
  (queue.filter fun x => x.1 = p).map Prod.snd

section

variable {ι : Type*} [DecidableEq ι] {p q : ι} {t : Touch}

@[simp] theorem touchesAt_nil : touchesAt p [] = [] := rfl

@[simp] theorem touchesAt_append (queue more : List (ι × Touch)) :
    touchesAt p (queue ++ more) = touchesAt p queue ++ touchesAt p more := by
  simp [touchesAt]

@[simp] theorem touchesAt_cons_self (queue : List (ι × Touch)) :
    touchesAt p ((p, t) :: queue) = t :: touchesAt p queue := by
  simp [touchesAt]

theorem touchesAt_cons_of_ne (h : q ≠ p) (queue : List (ι × Touch)) :
    touchesAt p ((q, t) :: queue) = touchesAt p queue := by
  simp [touchesAt, h]

theorem mem_touchesAt {queue : List (ι × Touch)} : t ∈ touchesAt p queue ↔ (p, t) ∈ queue := by
  simp [touchesAt]

/-- The records of all places after the touches have been settled. -/
def settlePlaces (here : ι → Bool) (st : ι → PlaceState) (queue : List (ι × Touch)) : ι → PlaceState :=
  fun p => settleAll (here p) (st p) (touchesAt p queue)

variable {here : ι → Bool} {st : ι → PlaceState}

@[simp] theorem settlePlaces_nil : settlePlaces here st [] = st := rfl

theorem settlePlaces_append (queue more : List (ι × Touch)) :
    settlePlaces here st (queue ++ more) = settlePlaces here (settlePlaces here st queue) more := by
  funext p
  unfold settlePlaces
  rw [touchesAt_append, settleAll_append]

theorem settlePlaces_singleton :
    settlePlaces here st [(p, t)] = Function.update st p (settle (here p) (st p) t) := by
  funext q
  unfold settlePlaces
  by_cases hqp : q = p
  · subst hqp
    rw [Function.update_self, touchesAt_cons_self, touchesAt_nil, settleAll_cons, settleAll_nil]
  · rw [Function.update_of_ne hqp, touchesAt_cons_of_ne (Ne.symm hqp), touchesAt_nil, settleAll_nil]

end

end Metatup.Lib
