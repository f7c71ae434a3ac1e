import Mathlib.Data.List.Infix
import Mathlib.Logic.Function.Basic

/-!
# File trees

A tree says for every path, the names from the root, what is there and whether the party that works on
the tree has made it. This party may only change what it has made itself.

* `Allows`, `after`: which requests succeed, and the tree that comes out.
* `Grown`: what a tree has in common with the one it has grown out of.
* `Grown.after`, `Grown.perform`: requests keep this.
-/

namespace Metatup.Lib

/-- What is at a path. -/
inductive Item (E : Type*)
  | dir
  | leaf (e : E)
  deriving DecidableEq

/-- An item, with whether it is one's own. -/
structure Slot (E : Type*) where
  item : Item E
  mine : Bool
  deriving DecidableEq

abbrev FileTree (N E : Type*) := List N → Option (Slot E)

namespace FileTree

variable {N E : Type*} {may : List N → Bool} {t base : FileTree N E} {p q r a : List N}

/-- The path `q` leads through `p`. -/
def Below (p q : List N) : Prop := p <+: q ∧ p ≠ q

/-- What has something below it is a directory. -/
def Closed (t : FileTree N E) : Prop :=
  ∀ p q, (t q).isSome → Below p q → ∃ m, t p = some ⟨.dir, m⟩

/-- A directory whose names can be changed: one's own, or one that `may` names. -/
def Writable (may : List N → Bool) (t : FileTree N E) (p : List N) : Prop :=
  ∃ m, t p = some ⟨.dir, m⟩ ∧ (m = true ∨ may p = true)

/-- What can be asked of a tree. -/
inductive Request (N E : Type*)
  | add (p : List N) (i : Item E)
  | remove (p : List N)
  | removeDir (p : List N)
  | move (p q : List N)
  | edit (p : List N) (f : E → Option E)

/-- The path `q` can be taken by an item `i`. -/
def Free (t : FileTree N E) (i : Item E) (q : List N) : Prop :=
  t q = none ∨ ∃ j, t q = some ⟨j, true⟩ ∧ (i = .dir ↔ j = .dir) ∧ ∀ r, Below q r → t r = none

/-- The requests that succeed. -/
def Allows (may : List N → Bool) (t : FileTree N E) : Request N E → Prop
  | .add p _ => p ≠ [] ∧ t p = none ∧ Writable may t p.dropLast
  | .remove p => (∃ e, t p = some ⟨.leaf e, true⟩) ∧ Writable may t p.dropLast
  | .removeDir p =>
    t p = some ⟨.dir, true⟩ ∧ (∀ q, Below p q → t q = none) ∧ Writable may t p.dropLast
  | .move p q =>
    p = q ∧ (t p).isSome ∨
      (∃ i, t p = some ⟨i, true⟩ ∧ Free t i q) ∧ ¬ p <+: q ∧
        Writable may t p.dropLast ∧ Writable may t q.dropLast
  | .edit p f => ∃ e, t p = some ⟨.leaf e, true⟩ ∧ (f e).isSome

/-- What was at `p` and below it is at `q`, instead of what was there. -/
def moved [DecidableEq N] (t : FileTree N E) (p q : List N) : FileTree N E := fun r =>
  if q <+: r then t (p ++ r.drop q.length) else if p <+: r then none else t r

/-- The tree after a request that succeeds. -/
def after [DecidableEq N] (t : FileTree N E) : Request N E → FileTree N E
  | .add p i => Function.update t p (some ⟨i, true⟩)
  | .remove p => Function.update t p none
  | .removeDir p => Function.update t p none
  | .move p q => if p = q then t else t.moved p q
  | .edit p f =>
    match t p with
    | some ⟨.leaf e, m⟩ => Function.update t p ((f e).map (⟨.leaf ·, m⟩))
    | _ => t

open Classical in
/-- A request, which changes nothing when it fails. -/
noncomputable def perform [DecidableEq N] (t : FileTree N E) (may : List N → Bool) (r : Request N E) : FileTree N E :=
  if Allows may t r then t.after r else t

/-- What a tree has in common with the one it has grown out of: everything but what one has made oneself,
and this is where nothing was. -/
structure Grown (may : List N → Bool) (base t : FileTree N E) : Prop where
  same : ∀ p, t p = base p ∨ (∃ i, t p = some ⟨i, true⟩) ∧ base p = none
  closed : Closed t
  writable : ∀ p i, t p = some ⟨i, true⟩ → p ≠ [] ∧ Writable may t p.dropLast

/-! ### Paths -/

theorem Below.ne_nil (h : Below p q) : q ≠ [] := by
  rintro rfl
  exact h.2 (List.prefix_nil.1 h.1)

/-- The directory of a path is the last one it leads through. -/
theorem Below.prefix_dropLast (h : Below p q) : p <+: q.dropLast := by
  have hlt : p.length < q.length :=
    Nat.lt_of_le_of_ne h.1.length_le fun heq => h.2 (h.1.eq_of_length heq)
  apply List.prefix_of_prefix_length_le h.1 (List.dropLast_prefix q)
  rw [List.length_dropLast]
  omega

theorem below_dropLast (hq : q ≠ []) : Below q.dropLast q := by
  refine ⟨List.dropLast_prefix q, fun heq => ?_⟩
  have hlen := congrArg List.length heq
  rw [List.length_dropLast] at hlen
  have hpos := List.length_pos_of_ne_nil hq
  omega

theorem below_append (p : List N) (hq : q ≠ []) : Below p (p ++ q) :=
  ⟨List.prefix_append p q, fun heq => hq (List.self_eq_append_right.1 heq)⟩

theorem below_append_iff : Below (p ++ q) (p ++ r) ↔ Below q r := by
  unfold Below
  rw [List.prefix_append_right_inj, ne_eq, List.append_cancel_left_eq]

/-! ### Trees -/

/-- Nothing is below what is no directory. -/
theorem Closed.eq_none (h : Closed t) (hp : ∀ m, t p ≠ some ⟨.dir, m⟩) (hpq : Below p q) :
    t q = none := by
  by_contra hq
  obtain ⟨m, hm⟩ := h p q (Option.isSome_iff_ne_none.2 hq) hpq
  exact hp m hm

theorem Closed.eq_none_of_none (h : Closed t) (hp : t p = none) (hpq : p <+: q) : t q = none := by
  by_cases heq : p = q
  · exact heq ▸ hp
  · refine h.eq_none (p := p) (fun m => ?_) ⟨hpq, heq⟩
    rw [hp]
    exact Option.some_ne_none _ ∘ Eq.symm

/-- The directory of what is below `p` or next to it, when all that is above is a directory. -/
theorem Closed.of_dropLast (h : Closed t) {m : Bool} (hp : t p.dropLast = some ⟨.dir, m⟩)
    (hap : Below a p) : ∃ m, t a = some ⟨.dir, m⟩ := by
  by_cases heq : a = p.dropLast
  · exact ⟨m, heq ▸ hp⟩
  · exact h a p.dropLast (by rw [hp]; rfl) ⟨hap.prefix_dropLast, heq⟩

section

variable [DecidableEq N]

theorem moved_append (t : FileTree N E) (p q r : List N) : t.moved p q (q ++ r) = t (p ++ r) := by
  unfold moved
  rw [if_pos (List.prefix_append q r), List.drop_left]

theorem moved_elsewhere (hqr : ¬ q <+: r) (hpr : ¬ p <+: r) : t.moved p q r = t r := by
  unfold moved
  rw [if_neg hqr, if_neg hpr]

theorem moved_from (hqr : ¬ q <+: r) (hpr : p <+: r) : t.moved p q r = none := by
  unfold moved
  rw [if_neg hqr, if_pos hpr]

/-- What has nothing below it is moved by itself. -/
theorem moved_eq_update (hp : ∀ r, Below p r → t r = none) (hq : ∀ r, Below q r → t r = none) :
    t.moved p q = Function.update (Function.update t p none) q (t p) := by
  funext r
  by_cases hrq : r = q
  · subst hrq
    have hgo := moved_append t p r []
    rwa [List.append_nil, List.append_nil, ← Function.update_self r (t p) (Function.update t p none)] at hgo
  rw [Function.update_of_ne hrq]
  by_cases hqr : q <+: r
  · have hgone : Function.update t p none r = none := by
      by_cases hrp : r = p
      · rw [hrp, Function.update_self]
      · rw [Function.update_of_ne hrp, hq r ⟨hqr, Ne.symm hrq⟩]
    obtain ⟨b, rfl⟩ := hqr
    have hb : b ≠ [] := by
      rintro rfl
      exact hrq (List.append_nil q)
    rw [moved_append, hgone, hp _ (below_append p hb)]
  · by_cases hrp : r = p
    · subst hrp
      rw [moved_from hqr List.prefix_rfl, Function.update_self]
    · rw [Function.update_of_ne hrp]
      by_cases hpr : p <+: r
      · rw [moved_from hqr hpr, hp r ⟨hpr, Ne.symm hrp⟩]
      · exact moved_elsewhere hqr hpr

end

/-- A tree without anything of one's own has grown out of itself. -/
theorem Grown.refl (hclosed : Closed t) (hmine : ∀ p i, t p ≠ some ⟨i, true⟩) : Grown may t t :=
  ⟨fun _ => .inl rfl, hclosed, fun p i h => absurd h (hmine p i)⟩

section

variable (h : Grown may base t)

include h

/-- Where nothing is now, nothing was. -/
theorem Grown.base_none (hp : t p = none) : base p = none := by
  rcases h.same p with heq | ⟨_, hbase⟩
  · exact heq ▸ hp
  · exact hbase

theorem Grown.base_none_of_mine {i : Item E} (hp : t p = some ⟨i, true⟩)
    (hbase : ∀ i, base p ≠ some ⟨i, true⟩) : base p = none := by
  rcases h.same p with heq | ⟨_, hnone⟩
  · exact absurd (heq ▸ hp) (hbase i)
  · exact hnone

/-- What is below something of one's own is one's own. -/
theorem Grown.mine_below {s : Slot E} (hp : base p = none) (hclosed : Closed base) (hpq : p <+: q)
    (hq : t q = some s) : s.mine = true := by
  have hnone := hclosed.eq_none_of_none hp hpq
  rcases h.same q with heq | ⟨⟨i, hi⟩, _⟩
  · rw [heq, hnone] at hq
    cases hq
  · rw [hi] at hq
    cases hq
    rfl

variable [DecidableEq N]

/-- Something of one's own comes to where nothing is. -/
theorem Grown.update_some {i : Item E} (hp : p ≠ []) (hnone : t p = none)
    (hw : Writable may t p.dropLast) : Grown may base (Function.update t p (some ⟨i, true⟩)) := by
  have hother : ∀ {a : List N} {m : Bool}, t a = some ⟨.dir, m⟩ → a ≠ p := by
    rintro a m ha rfl
    rw [hnone] at ha
    cases ha
  obtain ⟨m, hdir, hm⟩ := hw
  refine ⟨fun q => ?_, fun a q hq hab => ?_, fun q j hq => ?_⟩
  · by_cases hqp : q = p
    · subst hqp
      exact .inr ⟨⟨i, Function.update_self ..⟩, h.base_none hnone⟩
    · rw [Function.update_of_ne hqp]
      exact h.same q
  · have hdirs : ∃ m, t a = some ⟨.dir, m⟩ := by
      by_cases hqp : q = p
      · exact h.closed.of_dropLast hdir (hqp ▸ hab)
      · rw [Function.update_of_ne hqp] at hq
        exact h.closed a q hq hab
    obtain ⟨m, ha⟩ := hdirs
    exact ⟨m, by rw [Function.update_of_ne (hother ha), ha]⟩
  · have hspot : q ≠ [] ∧ Writable may t q.dropLast := by
      by_cases hqp : q = p
      · subst hqp
        exact ⟨hp, m, hdir, hm⟩
      · rw [Function.update_of_ne hqp] at hq
        exact h.writable q j hq
    obtain ⟨hne, m', ha, hm'⟩ := hspot
    exact ⟨hne, m', by rw [Function.update_of_ne (hother ha), ha], hm'⟩

/-- Something of one's own with nothing below it goes. -/
theorem Grown.update_none {i : Item E} (hp : t p = some ⟨i, true⟩)
    (hbase : ∀ i, base p ≠ some ⟨i, true⟩) (hbelow : ∀ q, Below p q → t q = none) :
    Grown may base (Function.update t p none) := by
  refine ⟨fun q => ?_, fun a q hq hab => ?_, fun q j hq => ?_⟩
  · by_cases hqp : q = p
    · subst hqp
      rw [Function.update_self, h.base_none_of_mine hp hbase]
      exact .inl rfl
    · rw [Function.update_of_ne hqp]
      exact h.same q
  all_goals
    have hqp : q ≠ p := by
      rintro rfl
      rw [Function.update_self] at hq
      cases hq
    rw [Function.update_of_ne hqp] at hq
    have hother : ∀ {a : List N}, Below a q → a ≠ p := by
      rintro a hab rfl
      rw [hbelow q hab] at hq
      cases hq
  · rw [Function.update_of_ne (hother hab)]
    exact h.closed a q hq hab
  · obtain ⟨hne, m, hdir, hm⟩ := h.writable q j hq
    exact ⟨hne, m, by rw [Function.update_of_ne (hother (below_dropLast hne)), hdir], hm⟩

/-- One's own changes in place, and what was a directory stays one. -/
theorem Grown.update_same {e e' : E} (hp : t p = some ⟨.leaf e, true⟩)
    (hbase : ∀ i, base p ≠ some ⟨i, true⟩) :
    Grown may base (Function.update t p (some ⟨.leaf e', true⟩)) := by
  have hother : ∀ {a : List N} {m : Bool}, t a = some ⟨.dir, m⟩ → a ≠ p := by
    rintro a m ha rfl
    rw [hp] at ha
    cases ha
  have hsome : ∀ {q : List N}, (Function.update t p (some ⟨.leaf e', true⟩) q).isSome → (t q).isSome := by
    intro q hq
    by_cases hqp : q = p
    · rw [hqp, hp]
      rfl
    · rwa [Function.update_of_ne hqp] at hq
  refine ⟨fun q => ?_, fun a q hq hab => ?_, fun q j hq => ?_⟩
  · by_cases hqp : q = p
    · subst hqp
      exact .inr ⟨⟨_, Function.update_self ..⟩, h.base_none_of_mine hp hbase⟩
    · rw [Function.update_of_ne hqp]
      exact h.same q
  · obtain ⟨m, ha⟩ := h.closed a q (hsome hq) hab
    exact ⟨m, by rw [Function.update_of_ne (hother ha), ha]⟩
  · have hmine : ∃ i, t q = some ⟨i, true⟩ := by
      by_cases hqp : q = p
      · exact ⟨_, hqp ▸ hp⟩
      · rw [Function.update_of_ne hqp] at hq
        exact ⟨j, hq⟩
    obtain ⟨i, hi⟩ := hmine
    obtain ⟨hne, m, ha, hm⟩ := h.writable q i hi
    exact ⟨hne, m, by rw [Function.update_of_ne (hother ha), ha], hm⟩

/-- Something of one's own, with what is below it, is moved to a path that it can take. -/
theorem Grown.move (hclosed : Closed base) (hbase : ∀ p i, base p ≠ some ⟨i, true⟩) {i : Item E}
    (hp : t p = some ⟨i, true⟩) (hfree : Free t i q) (hpq : ¬ p <+: q)
    (hw : Writable may t q.dropLast) :
    Grown may base (t.moved p q) := by
  have hpnone : base p = none := h.base_none_of_mine hp (hbase p)
  have hqnone : base q = none := by
    rcases hfree with hnone | ⟨j, hj, -⟩
    · exact h.base_none hnone
    · exact h.base_none_of_mine hj (hbase q)
  have hq : q ≠ [] := by
    rintro rfl
    rcases hfree with hnone | ⟨j, hj, -⟩
    · have hgone := h.closed.eq_none_of_none hnone (List.nil_prefix (l := p))
      rw [hp] at hgone
      cases hgone
    · exact (h.writable [] j hj).1 rfl
  have habove : ∀ {a : List N}, Below a q → t.moved p q a = t a := fun hab =>
    moved_elsewhere (fun hqa => hab.2 (hab.1.eq_of_length_le hqa.length_le))
      fun hpa => hpq (hpa.trans hab.1)
  obtain ⟨m, hdir, hm⟩ := hw
  refine ⟨fun r => ?_, fun a r hr har => ?_, fun r j hr => ?_⟩
  · by_cases hqr : q <+: r
    · obtain ⟨b, rfl⟩ := hqr
      rw [moved_append, hclosed.eq_none_of_none hqnone (List.prefix_append q b)]
      rcases ht : t (p ++ b) with _ | ⟨j, m⟩
      · exact .inl rfl
      · cases h.mine_below hpnone hclosed (List.prefix_append p b) ht
        exact .inr ⟨⟨j, rfl⟩, rfl⟩
    · by_cases hpr : p <+: r
      · rw [moved_from hqr hpr, hclosed.eq_none_of_none hpnone hpr]
        exact .inl rfl
      · rw [moved_elsewhere hqr hpr]
        exact h.same r
  · by_cases hqr : q <+: r
    · obtain ⟨b, rfl⟩ := hqr
      rw [moved_append] at hr
      rcases List.prefix_or_prefix_of_prefix har.1 (List.prefix_append q b) with haq | hqa
      · by_cases heq : a = q
        · subst heq
          have hb : b ≠ [] := by
            rintro rfl
            exact har.2 (List.append_nil a).symm
          have hgo := moved_append t p a []
          rw [List.append_nil, List.append_nil] at hgo
          rw [hgo]
          exact h.closed p (p ++ b) hr (below_append p hb)
        · rw [habove ⟨haq, heq⟩]
          exact h.closed.of_dropLast hdir ⟨haq, heq⟩
      · obtain ⟨c, rfl⟩ := hqa
        rw [moved_append]
        exact h.closed _ _ hr (below_append_iff.2 (below_append_iff.1 har))
    · by_cases hpr : p <+: r
      · rw [moved_from hqr hpr] at hr
        cases hr
      · rw [moved_elsewhere hqr hpr] at hr
        rw [moved_elsewhere (fun hqa => hqr (hqa.trans har.1)) fun hpa => hpr (hpa.trans har.1)]
        exact h.closed a r hr har
  · by_cases hqr : q <+: r
    · obtain ⟨b, rfl⟩ := hqr
      refine ⟨fun hnil => hq (List.append_eq_nil_iff.1 hnil).1, ?_⟩
      rcases List.eq_nil_or_concat' b with rfl | ⟨c, n, rfl⟩
      · rw [List.append_nil]
        exact ⟨m, (habove (below_dropLast hq)).trans hdir, hm⟩
      · rw [moved_append, ← List.append_assoc] at hr
        obtain ⟨-, m', hdir', -⟩ := h.writable _ j hr
        rw [List.dropLast_concat] at hdir'
        have hmine := h.mine_below hpnone hclosed (List.prefix_append p c) hdir'
        rw [← List.append_assoc, List.dropLast_concat]
        exact ⟨m', (moved_append t p q c).trans hdir', .inl hmine⟩
    · by_cases hpr : p <+: r
      · rw [moved_from hqr hpr] at hr
        cases hr
      · rw [moved_elsewhere hqr hpr] at hr
        obtain ⟨hne, m', hdir', hm'⟩ := h.writable r j hr
        have hpre := List.dropLast_prefix r
        have hstay : t.moved p q r.dropLast = t r.dropLast :=
          moved_elsewhere (fun hqa => hqr (hqa.trans hpre)) fun hpa => hpr (hpa.trans hpre)
        exact ⟨hne, m', hstay.trans hdir', hm'⟩

end

/-! ### Requests -/

variable [DecidableEq N]

/-- A request that succeeds leaves everything but one's own as it was. -/
theorem Grown.after (hclosed : Closed base) (hbase : ∀ p i, base p ≠ some ⟨i, true⟩)
    (h : Grown may base t) {r : Request N E} (hr : Allows may t r) : Grown may base (t.after r) := by
  cases r with
  | add p i => exact h.update_some hr.1 hr.2.1 hr.2.2
  | remove p =>
    obtain ⟨⟨e, he⟩, -⟩ := hr
    apply h.update_none he (hbase p)
    intro q hpq
    apply h.closed.eq_none _ hpq
    rintro m hm
    rw [he] at hm
    cases hm
  | removeDir p => exact h.update_none hr.1 (hbase p) hr.2.1
  | move p q =>
    by_cases heq : p = q
    · rw [FileTree.after, if_pos heq]
      exact h
    · rw [FileTree.after, if_neg heq]
      obtain ⟨⟨i, hi, hfree⟩, hpq, -, hw⟩ := hr.resolve_left fun hsame => heq hsame.1
      exact h.move hclosed hbase hi hfree hpq hw
  | edit p f =>
    obtain ⟨e, he, hsome⟩ := hr
    obtain ⟨e', he'⟩ := Option.isSome_iff_exists.1 hsome
    simp only [FileTree.after, he, he', Option.map_some]
    exact h.update_same he (hbase p)

theorem Grown.perform (hclosed : Closed base) (hbase : ∀ p i, base p ≠ some ⟨i, true⟩)
    (h : Grown may base t) (r : Request N E) : Grown may base (t.perform may r) := by
  unfold FileTree.perform
  split
  · next hr => exact h.after hclosed hbase hr
  · exact h

end FileTree

end Metatup.Lib
