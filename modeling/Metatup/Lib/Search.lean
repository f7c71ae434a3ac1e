import Mathlib.Algebra.Order.BigOperators.Group.Finset
import Mathlib.Data.Finset.Basic
import Mathlib.Data.List.Nodup
import Mathlib.Logic.Function.Basic
import Mathlib.Logic.Relation

/-!
# Stack search with marks

A search keeps a stack of nodes and a mark for each node. The node on top is first expanded, which
pushes the successors nobody has seen yet, and is taken off the stack when it comes to the top
again. A node seen before keeps its place on the stack, so this is not depth-first order. Meeting
a successor that is expanded but not yet done is an error.

* `SearchInv`: the invariant of the loop.
* `Search.run_init_correct`: the loop ends; it fails only when a cycle can be reached, and otherwise
  its answer is whether a goal can be reached.
-/

namespace Metatup.Lib

open Relation

/-- How far the search is with a node. -/
inductive Mark
  | fresh | waiting | active | done
  deriving DecidableEq, Repr

/-- The state of a search. -/
structure Search (α : Type*) where
  /-- The nodes to come back to. -/
  stack : List α
  /-- How far the search is with each node. -/
  mark : α → Mark

namespace Search

variable {α : Type*} [DecidableEq α]

/-- The search at the start: only the source is on the stack. -/
def init (src : α) : Search α := ⟨[src], Function.update (fun _ => .fresh) src .waiting⟩

/-- Change the mark of a node. -/
def setMark (s : Search α) (n : α) (k : Mark) : Search α :=
  { s with mark := Function.update s.mark n k }

@[simp] theorem setMark_stack (s : Search α) (n : α) (k : Mark) : (s.setMark n k).stack = s.stack :=
  rfl

@[simp] theorem setMark_mark (s : Search α) (n m : α) (k : Mark) :
    (s.setMark n k).mark m = if m = n then k else s.mark m := by
  simp [setMark, Function.update_apply]

/-- Meet the successor `m` of the node under expansion. -/
def push (s : Search α) (m : α) : Option (Search α) :=
  match s.mark m with
  | .active => none
  | .fresh => some { stack := m :: s.stack, mark := Function.update s.mark m .waiting }
  | .waiting | .done => some s

/-- Meet all of `ms`, in order. -/
def pushAll (s : Search α) (ms : List α) : Option (Search α) := ms.foldlM push s

/-- Meet the successor `m` where meeting an expanded node is no error. -/
def see (s : Search α) (m : α) : Search α :=
  if s.mark m = .fresh then { stack := m :: s.stack, mark := Function.update s.mark m .waiting }
  else s

/-- Meet all of `ms`, in order, without an error. -/
def seeAll (s : Search α) (ms : List α) : Search α := ms.foldl see s

/-- The loop: `some true` as soon as a goal is on top, `some false` when the stack is empty. -/
def run (succ : α → List α) (goal : α → Bool) : ℕ → Search α → Option Bool
  | 0, _ => none
  | fuel + 1, s =>
    match s.stack with
    | [] => some false
    | n :: rest =>
      if goal n then some true
      else
        match s.mark n with
        | .waiting =>
          match s.pushAll (succ n) with
          | none => none
          | some s' => run succ goal fuel (s'.setMark n .active)
        | .active => run succ goal fuel (setMark { s with stack := rest } n .done)
        | .fresh | .done => none

end Search

variable {α : Type*} {succ : α → List α} {goal : α → Bool} {src : α}

/-- The edges a successor function gives. -/
def Next (succ : α → List α) (a b : α) : Prop := b ∈ succ a

/-- What holds of a search whenever the loop is at its head. -/
structure SearchInv (succ : α → List α) (goal : α → Bool) (src : α) (s : Search α) : Prop where
  nodup : s.stack.Nodup
  mem_stack : ∀ n, n ∈ s.stack ↔ s.mark n = .waiting ∨ s.mark n = .active
  reach : ∀ n, s.mark n ≠ .fresh → ReflTransGen (Next succ) src n
  /-- A node that has been expanded is no goal, and its successors have been seen. -/
  closed : ∀ n, s.mark n = .active ∨ s.mark n = .done →
    goal n = false ∧ ∀ m ∈ succ n, s.mark m ≠ .fresh
  /-- What lies above an expanded node on the stack can be reached from it. -/
  above : ∀ pre n post, s.stack = pre ++ n :: post → s.mark n = .active →
    ∀ m ∈ pre, TransGen (Next succ) n m
  source : s.mark src ≠ .fresh

/-- `t` is `s` with some unseen nodes of `ms` pushed. -/
structure Pushed (ms : List α) (s t : Search α) : Prop where
  stack : ∃ new, t.stack = new ++ s.stack ∧ ∀ m ∈ new, m ∈ ms
  mark : ∀ x, t.mark x = s.mark x ∨ s.mark x = .fresh ∧ t.mark x = .waiting

namespace Pushed

variable {ms : List α} {s t : Search α}

theorem refl (ms : List α) (s : Search α) : Pushed ms s s :=
  ⟨⟨[], rfl, by simp⟩, fun _ => .inl rfl⟩

theorem trans {u : Search α} (h : Pushed ms s t) (h' : Pushed ms t u) : Pushed ms s u := by
  obtain ⟨a, ha, hma⟩ := h.stack
  obtain ⟨b, hb, hmb⟩ := h'.stack
  refine ⟨⟨b ++ a, by rw [hb, ha, List.append_assoc], fun m hm => ?_⟩, fun x => ?_⟩
  · rcases List.mem_append.1 hm with hm | hm
    · exact hmb m hm
    · exact hma m hm
  · rcases h.mark x with h1 | ⟨h1, h2⟩
    · rw [← h1]
      exact h'.mark x
    · rcases h'.mark x with h3 | ⟨h3, _⟩
      · exact .inr ⟨h1, h3.trans h2⟩
      · rw [h2] at h3
        cases h3

theorem mono {ms' : List α} (h : Pushed ms s t) (hs : ∀ m ∈ ms, m ∈ ms') : Pushed ms' s t := by
  obtain ⟨a, ha, hma⟩ := h.stack
  exact ⟨⟨a, ha, fun m hm => hs m (hma m hm)⟩, h.mark⟩

theorem mark_of_ne (h : Pushed ms s t) {x : α} (hx : s.mark x ≠ .fresh) : t.mark x = s.mark x := by
  rcases h.mark x with h | ⟨h, _⟩
  · exact h
  · exact absurd h hx

theorem ne_fresh (h : Pushed ms s t) {x : α} (hx : s.mark x ≠ .fresh) : t.mark x ≠ .fresh := by
  rw [h.mark_of_ne hx]
  exact hx

theorem active_iff (h : Pushed ms s t) {x : α} : t.mark x = .active ↔ s.mark x = .active := by
  rcases h.mark x with h | ⟨h1, h2⟩
  · rw [h]
  · simp [h1, h2]

theorem done_iff (h : Pushed ms s t) {x : α} : t.mark x = .done ↔ s.mark x = .done := by
  rcases h.mark x with h | ⟨h1, h2⟩
  · rw [h]
  · simp [h1, h2]

end Pushed

variable [DecidableEq α]

theorem pushed_see (s : Search α) (m : α) : Pushed [m] s (s.see m) := by
  unfold Search.see
  split_ifs with hk
  · refine ⟨⟨[m], rfl, fun _ h => h⟩, fun x => ?_⟩
    by_cases hx : x = m
    · exact .inr ⟨hx ▸ hk, by simp [hx]⟩
    · exact .inl (by simp [hx])
  · exact .refl _ _

theorem pushed_seeAll (s : Search α) (ms : List α) : Pushed ms s (s.seeAll ms) := by
  induction ms generalizing s with
  | nil => exact .refl _ _
  | cons m ms ih =>
    exact ((pushed_see s m).mono (by simp)).trans ((ih (s.see m)).mono fun x hx => by simp [hx])

theorem searchInv_init : SearchInv succ goal src (.init src) where
  nodup := by simp [Search.init]
  mem_stack := by
    intro n
    by_cases h : n = src <;> simp [Search.init, h]
  reach := by
    intro n hn
    by_cases h : n = src
    · exact h ▸ .refl
    · simp [Search.init, h] at hn
  closed := by
    intro n hn
    by_cases h : n = src <;> simp [Search.init, h] at hn
  above := by
    intro pre n post _ hn
    by_cases h : n = src <;> simp [Search.init, h] at hn
  source := by simp [Search.init]

namespace SearchInv

variable {s t : Search α}

/-- Meeting one node. It fails on an expanded node, and then the node is on a cycle. -/
theorem push {m : α} (h : SearchInv succ goal src s) (hm : ReflTransGen (Next succ) src m)
    (hact : ∀ a, s.mark a = .active → TransGen (Next succ) a m) :
    (s.push m = none → TransGen (Next succ) m m) ∧
      ∀ t, s.push m = some t → SearchInv succ goal src t ∧ Pushed [m] s t ∧ t.mark m ≠ .fresh := by
  unfold Search.push
  split
  · next hk => exact ⟨fun _ => hact m hk, by simp⟩
  · next hk =>
    refine ⟨by simp, ?_⟩
    rintro t ⟨⟩
    have hnot : m ∉ s.stack := by simp [h.mem_stack, hk]
    have hpushed : Pushed [m] s ⟨m :: s.stack, Function.update s.mark m .waiting⟩ := by
      refine ⟨⟨[m], rfl, fun _ h => h⟩, fun x => ?_⟩
      by_cases hx : x = m
      · exact .inr ⟨hx ▸ hk, by simp [hx]⟩
      · exact .inl (by simp [hx])
    refine ⟨⟨List.nodup_cons.2 ⟨hnot, h.nodup⟩, ?_, ?_, ?_, ?_, hpushed.ne_fresh h.source⟩, hpushed,
      by simp⟩
    · intro n
      by_cases hn : n = m <;> simp [hn, h.mem_stack]
    · intro n hn
      by_cases hnm : n = m
      · exact hnm ▸ hm
      · exact h.reach n (by simpa [Function.update_apply, hnm] using hn)
    · intro n hn
      rw [hpushed.active_iff, hpushed.done_iff] at hn
      exact ⟨(h.closed n hn).1, fun x hx => hpushed.ne_fresh ((h.closed n hn).2 x hx)⟩
    · intro pre n post heq hn x hx
      rw [hpushed.active_iff] at hn
      cases pre with
      | nil => simp at hx
      | cons p pre =>
        injection heq with hp heq
        rcases List.mem_cons.1 hx with rfl | hx
        · exact hp ▸ hact n hn
        · exact h.above pre n post heq hn x hx
  · next hk => exact ⟨by simp, by rintro t ⟨⟩; exact ⟨h, .refl _ _, by simp [hk]⟩⟩
  · next hk => exact ⟨by simp, by rintro t ⟨⟩; exact ⟨h, .refl _ _, by simp [hk]⟩⟩

/-- Meeting several nodes. -/
theorem pushAll {ms : List α} (h : SearchInv succ goal src s)
    (hms : ∀ m ∈ ms, ReflTransGen (Next succ) src m)
    (hact : ∀ m ∈ ms, ∀ a, s.mark a = .active → TransGen (Next succ) a m) :
    (s.pushAll ms = none → ∃ m ∈ ms, TransGen (Next succ) m m) ∧
      ∀ t, s.pushAll ms = some t →
        SearchInv succ goal src t ∧ Pushed ms s t ∧ ∀ m ∈ ms, t.mark m ≠ .fresh := by
  induction ms generalizing s with
  | nil =>
    refine ⟨by simp [Search.pushAll], ?_⟩
    rintro t ⟨⟩
    exact ⟨h, .refl _ _, by simp⟩
  | cons m ms ih =>
    obtain ⟨hnone, hsome⟩ := h.push (hms m (by simp)) (hact m (by simp))
    cases hp : s.push m with
    | none => exact ⟨fun _ => ⟨m, by simp, hnone hp⟩, by simp [Search.pushAll, hp]⟩
    | some u =>
      obtain ⟨hu, hsu, hmu⟩ := hsome u hp
      have htail := ih hu (fun x hx => hms x (by simp [hx]))
        (fun x hx a ha => hact x (by simp [hx]) a (hsu.active_iff.1 ha))
      have hrec : s.pushAll (m :: ms) = u.pushAll ms := by simp [Search.pushAll, hp]
      rw [hrec]
      refine ⟨fun hn => ?_, fun t ht => ?_⟩
      · obtain ⟨x, hx, hcyc⟩ := htail.1 hn
        exact ⟨x, by simp [hx], hcyc⟩
      · obtain ⟨hti, hut, hmt⟩ := htail.2 t ht
        refine ⟨hti, (hsu.mono (by simp)).trans (hut.mono fun x hx => by simp [hx]), fun x hx => ?_⟩
        rcases List.mem_cons.1 hx with rfl | hx
        · exact hut.ne_fresh hmu
        · exact hmt x hx

/-- Meeting one node without an error is meeting it, or passing by an expanded one. -/
theorem see {m : α} (h : SearchInv succ goal src s) (hm : ReflTransGen (Next succ) src m)
    (hact : ∀ a, s.mark a = .active → TransGen (Next succ) a m) :
    SearchInv succ goal src (s.see m) ∧ Pushed [m] s (s.see m) ∧ (s.see m).mark m ≠ .fresh := by
  by_cases hk : s.mark m = .fresh
  · exact (h.push hm hact).2 (s.see m) (by simp [Search.push, Search.see, hk])
  · have hsee : s.see m = s := if_neg hk
    rw [hsee]
    exact ⟨h, .refl _ _, hk⟩

/-- Meeting several nodes without an error. -/
theorem seeAll {ms : List α} (h : SearchInv succ goal src s)
    (hms : ∀ m ∈ ms, ReflTransGen (Next succ) src m)
    (hact : ∀ m ∈ ms, ∀ a, s.mark a = .active → TransGen (Next succ) a m) :
    SearchInv succ goal src (s.seeAll ms) ∧ Pushed ms s (s.seeAll ms) ∧
      ∀ m ∈ ms, (s.seeAll ms).mark m ≠ .fresh := by
  induction ms generalizing s with
  | nil => exact ⟨h, .refl _ _, by simp⟩
  | cons m ms ih =>
    obtain ⟨hu, hsu, hmu⟩ := h.see (hms m (by simp)) (hact m (by simp))
    obtain ⟨hti, hut, hmt⟩ := ih hu (fun x hx => hms x (by simp [hx]))
      (fun x hx a ha => hact x (by simp [hx]) a (hsu.active_iff.1 ha))
    refine ⟨hti, (hsu.mono (by simp)).trans (hut.mono fun x hx => by simp [hx]), fun x hx => ?_⟩
    rcases List.mem_cons.1 hx with rfl | hx
    · exact hut.ne_fresh hmu
    · exact hmt x hx

variable {n : α} {rest : List α}

omit [DecidableEq α] in
/-- An expanded node below the top reaches the top. -/
theorem active_reaches_top (h : SearchInv succ goal src s) (hs : s.stack = n :: rest)
    (hn : s.mark n = .waiting) {a : α} (ha : s.mark a = .active) : TransGen (Next succ) a n := by
  have hmem : a ∈ s.stack := (h.mem_stack a).2 (.inr ha)
  have hne : a ≠ n := by
    rintro rfl
    rw [hn] at ha
    cases ha
  rw [hs, List.mem_cons] at hmem
  obtain ⟨pre, post, hrest⟩ := List.append_of_mem (hmem.resolve_left hne)
  exact h.above (n :: pre) a post (by rw [hs, hrest, List.cons_append]) ha n (by simp)

/-- Once the successors of the top have been met, it is expanded. -/
theorem activate (h : SearchInv succ goal src s) (hs : s.stack = n :: rest)
    (hn : s.mark n = .waiting) (hg : goal n = false) (hti : SearchInv succ goal src t)
    (hst : Pushed (succ n) s t) (hseen : ∀ m ∈ succ n, t.mark m ≠ .fresh) :
    SearchInv succ goal src (t.setMark n .active) := by
  have htn : t.mark n = .waiting := by rw [hst.mark_of_ne (by simp [hn]), hn]
  refine ⟨hti.nodup, ?_, ?_, ?_, ?_, ?_⟩
  · intro x
    by_cases hx : x = n <;> simp [hx, hti.mem_stack, htn]
  · intro x hx
    by_cases hxn : x = n
    · exact hxn ▸ h.reach n (by simp [hn])
    · exact hti.reach x (by simpa [hxn] using hx)
  · intro x hx
    have hfresh : ∀ m, t.mark m ≠ .fresh → (t.setMark n .active).mark m ≠ .fresh := by
      intro m hm
      by_cases hmn : m = n <;> simp [hmn, hm]
    by_cases hxn : x = n
    · subst hxn
      exact ⟨hg, fun m hm => hfresh m (hseen m hm)⟩
    · have := hti.closed x (by simpa [hxn] using hx)
      exact ⟨this.1, fun m hm => hfresh m (this.2 m hm)⟩
  · intro pre x post heq hx m hm
    by_cases hxn : x = n
    · -- the node just expanded: everything above it has just been pushed
      subst hxn
      obtain ⟨new, hnew, hin⟩ := hst.stack
      rw [Search.setMark_stack, hnew, hs] at heq
      have hnd : (new ++ x :: rest).Nodup := by
        have := hti.nodup
        rwa [hnew, hs] at this
      have hx1 : x ∉ new := fun hx => List.disjoint_of_nodup_append hnd hx List.mem_cons_self
      have hx2 : x ∉ rest := (List.nodup_cons.1 hnd.of_append_right).1
      have hpre : new = pre := ((List.append_cons_inj_of_notMem hx1 hx2).1 heq).1
      exact TransGen.single (hin m (hpre ▸ hm))
    · exact hti.above pre x post heq (by simpa [hxn] using hx) m hm
  · by_cases hsn : src = n <;> simp [hsn, hti.source]

/-- Expanding the top of the stack. -/
theorem expand (h : SearchInv succ goal src s) (hs : s.stack = n :: rest)
    (hn : s.mark n = .waiting) (hg : goal n = false) :
    (s.pushAll (succ n) = none →
        ∃ m, ReflTransGen (Next succ) src m ∧ TransGen (Next succ) m m) ∧
      ∀ t, s.pushAll (succ n) = some t →
        SearchInv succ goal src (t.setMark n .active) ∧ Pushed (succ n) s t := by
  have hreach : ReflTransGen (Next succ) src n := h.reach n (by simp [hn])
  have hms : ∀ m ∈ succ n, ReflTransGen (Next succ) src m := fun m hm => hreach.tail hm
  obtain ⟨hnone, hsome⟩ := h.pushAll hms
    fun m hm a ha => (h.active_reaches_top hs hn ha).tail hm
  refine ⟨fun hp => ?_, fun t ht => ?_⟩
  · obtain ⟨m, hm, hcyc⟩ := hnone hp
    exact ⟨m, hms m hm, hcyc⟩
  · obtain ⟨hti, hst, hseen⟩ := hsome t ht
    exact ⟨h.activate hs hn hg hti hst hseen, hst⟩

/-- Leaving the top of the stack. -/
theorem leave (h : SearchInv succ goal src s) (hs : s.stack = n :: rest)
    (hn : s.mark n = .active) :
    SearchInv succ goal src (Search.setMark { s with stack := rest } n .done) := by
  have hnd : (n :: rest).Nodup := hs ▸ h.nodup
  refine ⟨(List.nodup_cons.1 hnd).2, ?_, ?_, ?_, ?_, ?_⟩
  · intro x
    have hx := h.mem_stack x
    rw [hs, List.mem_cons] at hx
    by_cases hxn : x = n
    · simpa [hxn] using (List.nodup_cons.1 hnd).1
    · simpa [hxn] using hx
  · intro x hx
    by_cases hxn : x = n
    · exact hxn ▸ h.reach n (by simp [hn])
    · exact h.reach x (by simpa [hxn] using hx)
  · intro x hx
    have hold : s.mark x = .active ∨ s.mark x = .done := by
      by_cases hxn : x = n
      · exact .inl (hxn ▸ hn)
      · simpa [hxn] using hx
    refine ⟨(h.closed x hold).1, fun m hm => ?_⟩
    have := (h.closed x hold).2 m hm
    by_cases hmn : m = n <;> simp [hmn, this]
  · intro pre x post heq hx m hm
    have hxn : x ≠ n := by
      rintro rfl
      simp at hx
    apply h.above (n :: pre) x post
    · rw [hs, List.cons_append]
      exact congrArg _ heq
    · simpa [hxn] using hx
    · exact List.mem_cons_of_mem n hm
  · by_cases hsn : src = n <;> simp [hsn, h.source]

omit [DecidableEq α] in
/-- When the stack is empty, everything that can be reached has been seen and is no goal. -/
theorem exhausted (h : SearchInv succ goal src s) (hs : s.stack = []) {m : α}
    (hm : ReflTransGen (Next succ) src m) : goal m = false := by
  have hdone : ∀ x, s.mark x ≠ .fresh → s.mark x = .done := by
    intro x hx
    have := h.mem_stack x
    rw [hs] at this
    cases hk : s.mark x <;> simp_all
  have hseen : s.mark m ≠ .fresh := by
    induction hm with
    | refl => exact h.source
    | tail _ hstep ih => exact (h.closed _ (.inr (hdone _ ih))).2 _ hstep
  exact (h.closed m (.inr (hdone m hseen))).1

end SearchInv

/-! ### Termination -/

/-- How many times a node can still come to the top of the stack. -/
def Mark.weight : Mark → ℕ
  | .fresh | .waiting => 2
  | .active => 1
  | .done => 0

/-- The steps that are left. -/
def Search.measure (U : Finset α) (s : Search α) : ℕ := ∑ n ∈ U, (s.mark n).weight

namespace Search

variable {U : Finset α} {s t : Search α} {n : α}

theorem measure_init (U : Finset α) (src : α) : (init src).measure U = 2 * U.card := by
  have hw : ∀ n ∈ U, ((init src).mark n).weight = 2 := by
    intro n _
    by_cases h : n = src <;> simp [init, h, Mark.weight]
  rw [measure, Finset.sum_congr rfl hw, Finset.sum_const, Nat.nsmul_eq_mul, Nat.mul_comm]

omit [DecidableEq α] in
theorem measure_pushed {ms : List α} (h : Pushed ms s t) : t.measure U = s.measure U := by
  refine Finset.sum_congr rfl fun x _ => ?_
  rcases h.mark x with h | ⟨h1, h2⟩
  · rw [h]
  · rw [h1, h2]
    rfl

theorem measure_setMark_lt (hU : n ∈ U) {k : Mark} (hk : k.weight < (s.mark n).weight) :
    (s.setMark n k).measure U < s.measure U := by
  refine Finset.sum_lt_sum (fun x _ => ?_) ⟨n, hU, by simpa using hk⟩
  by_cases hx : x = n
  · simpa [hx] using hk.le
  · simp [hx]

/-! ### The answer -/

/-- What the answer of a search says about the graph. -/
def Correct (succ : α → List α) (goal : α → Bool) (src : α) : Option Bool → Prop
  | none => ∃ m, ReflTransGen (Next succ) src m ∧ TransGen (Next succ) m m
  | some true => ∃ m, ReflTransGen (Next succ) src m ∧ goal m = true
  | some false => ∀ m, ReflTransGen (Next succ) src m → goal m = false

/-- With enough fuel the loop answers correctly from every state of the invariant. -/
theorem run_correct (hU : ∀ m, ReflTransGen (Next succ) src m → m ∈ U) {fuel : ℕ}
    (h : SearchInv succ goal src s) (hf : s.measure U < fuel) :
    Correct succ goal src (run succ goal fuel s) := by
  induction fuel generalizing s with
  | zero => omega
  | succ fuel ih =>
    unfold run
    split
    · next hs => exact fun m hm => h.exhausted hs hm
    · next n rest hs =>
      have hmem : n ∈ s.stack := by simp [hs]
      have hreach : ReflTransGen (Next succ) src n := by
        apply h.reach
        rcases (h.mem_stack n).1 hmem with hk | hk <;> simp [hk]
      split
      · next hg => exact ⟨n, hreach, hg⟩
      · next hg =>
        rw [Bool.not_eq_true] at hg
        rcases (h.mem_stack n).1 hmem with hk | hk
        · simp only [hk]
          obtain ⟨hnone, hsome⟩ := h.expand hs hk hg
          cases hp : s.pushAll (succ n) with
          | none => exact hnone hp
          | some t =>
            obtain ⟨hti, hst⟩ := hsome t hp
            have htn : (t.mark n).weight = 2 := by
              rw [hst.mark_of_ne (by simp [hk]), hk]
              rfl
            have hlt : (t.setMark n .active).measure U < t.measure U := by
              apply measure_setMark_lt (hU n hreach)
              rw [htn]
              decide
            rw [measure_pushed hst] at hlt
            exact ih hti (by omega)
        · simp only [hk]
          have hlt : (setMark { s with stack := rest } n .done).measure U < s.measure U := by
            apply measure_setMark_lt (hU n hreach)
            simp [hk, Mark.weight]
          exact ih (h.leave hs hk) (by omega)

/-- The search from a source, run for as many steps as it can take. -/
theorem run_init_correct (hU : ∀ m, ReflTransGen (Next succ) src m → m ∈ U) {fuel : ℕ}
    (hf : 2 * U.card < fuel) : Correct succ goal src (run succ goal fuel (init src)) :=
  run_correct hU searchInv_init (by rwa [measure_init])

end Search

end Metatup.Lib
