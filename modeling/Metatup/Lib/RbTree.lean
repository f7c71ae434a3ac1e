import Mathlib.Data.Int.Basic
import Mathlib.Data.List.Sort

/-!
# Red-black trees

A binary search tree in which every node has a colour. A node is inserted as a red leaf and removed
by taking its successor's place, and rotations on the way up repair the colours. The comparison is
any function to the integers.

* `toList_insert`, `toList_remove`: with a comparison that agrees with a linear order on the members,
  the tree holds what an increasing list holds.
* `find_eq`: a search finds the members.
* `Cursor.toList_next`: the walk with `min` and `next` goes through the members from left to right.
-/

namespace Metatup.Lib

/-! ### Trees -/

inductive Color
  | red
  | black
  deriving DecidableEq, Repr

inductive Side
  | left
  | right
  deriving DecidableEq, Repr

/-- The side across. -/
def Side.other : Side → Side
  | .left => .right
  | .right => .left

inductive RbTree (α : Type*)
  | nil
  | node (color : Color) (l : RbTree α) (x : α) (r : RbTree α)
  deriving Repr

/-- A step of the way down to a node: the parent without the subtree on that side. -/
structure Crumb (α : Type*) where
  side : Side
  color : Color
  key : α
  sibling : RbTree α

variable {α : Type*}

namespace RbTree

/-- The members from left to right. -/
def toList : RbTree α → List α
  | nil => []
  | node _ l x r => l.toList ++ x :: r.toList

def isRed : RbTree α → Bool
  | node .red _ _ _ => true
  | _ => false

def setColor (c : Color) : RbTree α → RbTree α
  | nil => nil
  | node _ l x r => node c l x r

def child : Side → RbTree α → RbTree α
  | _, nil => nil
  | .left, node _ l _ _ => l
  | .right, node _ _ _ r => r

/-- Give the child on one side a colour, if it is there. -/
def setChildColor (c : Color) : Side → RbTree α → RbTree α
  | _, nil => nil
  | .left, node d l x r => node d (l.setColor c) x r
  | .right, node d l x r => node d l x (r.setColor c)

/-- A node goes down on this side and its other child takes its place. -/
def rotate : Side → RbTree α → RbTree α
  | .left, node c l x (node d l' y r) => node d (node c l x l') y r
  | .right, node c (node d l y r') x r => node d l y (node c r' x r)
  | _, t => t

/-- The parent with this subtree. -/
def plug (b : Crumb α) (t : RbTree α) : RbTree α :=
  match b.side with
  | .left => node b.color t b.key b.sibling
  | .right => node b.color b.sibling b.key t

/-- The whole tree with this subtree; the innermost parent comes first. -/
def zip (path : List (Crumb α)) (t : RbTree α) : RbTree α := path.foldl (fun t b => plug b t) t

/-! ### Insertion -/

/-- The repair after an insertion: the subtree is the red node that may have a red parent. -/
def insertColor : RbTree α → List (Crumb α) → RbTree α
  | t, parent :: gparent :: path =>
    if parent.color = .red then
      if gparent.sibling.isRed then
        insertColor (plug { gparent with color := .red, sibling := gparent.sibling.setColor .black }
          (plug { parent with color := .black } t)) path
      else
        let p := plug parent t
        let p := if parent.side = gparent.side then p else p.rotate gparent.side
        zip path ((plug { gparent with color := .red } (p.setColor .black)).rotate gparent.side.other)
    else zip (parent :: gparent :: path) t
  | t, path => zip path t

variable (cmp : α → α → ℤ)

/-- The way down to the place of a new node; `none` when there is an equal one. -/
def insertAt (e : α) : RbTree α → List (Crumb α) → Option (RbTree α)
  | nil, path => some ((insertColor (node .red nil e nil) path).setColor .black)
  | node c l x r, path =>
    if cmp e x < 0 then insertAt e l (⟨.left, c, x, r⟩ :: path)
    else if cmp e x > 0 then insertAt e r (⟨.right, c, x, l⟩ :: path)
    else none

def insert (t : RbTree α) (e : α) : Option (RbTree α) := insertAt cmp e t []

/-- The member that is equal. -/
def find (e : α) : RbTree α → Option α
  | nil => none
  | node _ l x r => if cmp e x < 0 then find e l else if cmp e x > 0 then find e r else some x

/-! ### Removal -/

/-- The repair at one node whose sibling is black: it is done, or it goes on with the parent. -/
def removeColorAt (t : RbTree α) (parent : Crumb α) : RbTree α ⊕ RbTree α :=
  let tmp := parent.sibling
  if !(tmp.child parent.side).isRed && !(tmp.child parent.side.other).isRed then
    .inl (plug { parent with sibling := tmp.setColor .red } t)
  else
    let tmp := if (tmp.child parent.side.other).isRed then tmp
      else ((tmp.setChildColor .black parent.side).setColor .red).rotate parent.side.other
    let tmp := (tmp.setColor parent.color).setChildColor .black parent.side.other
    .inr ((plug { parent with color := .black, sibling := tmp } t).rotate parent.side)

/-- The repair after the removal of a black node: the subtree has a black node too few. -/
def removeColor : RbTree α → List (Crumb α) → RbTree α
  | t, [] => t.setColor .black
  | t, parent :: path =>
    if t.isRed then zip (parent :: path) (t.setColor .black)
    else
      match parent.sibling with
      | node .red l x r =>
        -- the sibling becomes the grandparent
        let near := child parent.side (node .red l x r)
        let gparent : Crumb α := ⟨parent.side, .black, x, child parent.side.other (node .red l x r)⟩
        match removeColorAt t { parent with color := .red, sibling := near } with
        -- the parent is red now, which ends the loop
        | .inl p => zip (gparent :: path) (p.setColor .black)
        | .inr p => (zip (gparent :: path) p).setColor .black
      | _ =>
        match removeColorAt t parent with
        | .inl p => removeColor p path
        | .inr p => (zip path p).setColor .black

/-- The way down on the left: the first member, its colour, its right child and its parents. -/
def leftmost : Color → RbTree α → α → RbTree α → List (Crumb α) →
    Color × α × RbTree α × List (Crumb α)
  | c, nil, x, r, path => (c, x, r, path)
  | c, node c' l' x' r', x, r, path => leftmost c' l' x' r' (⟨.left, c, x, r⟩ :: path)

/-- Put the child in the place of a node of this colour. -/
def spliceOut (c : Color) (child : RbTree α) (path : List (Crumb α)) : RbTree α :=
  if c = .black then removeColor child path else zip path child

/-- Remove the node `x` that has these children. -/
def removeNode (c : Color) (l : RbTree α) (r : RbTree α) (path : List (Crumb α)) : RbTree α :=
  match l, r with
  | nil, r => spliceOut c r path
  | l, nil => spliceOut c l path
  | l, node c' l' x' r' =>
    -- the successor takes its place and colour
    let (c₁, x₁, child, down) := leftmost c' l' x' r' []
    spliceOut c₁ child (down ++ ⟨.right, c, x₁, l⟩ :: path)

/-- The way down to the node that is equal, which is then removed. -/
def removeAt (e : α) : RbTree α → List (Crumb α) → Option (RbTree α)
  | nil, _ => none
  | node c l x r, path =>
    if cmp e x < 0 then removeAt e l (⟨.left, c, x, r⟩ :: path)
    else if cmp e x > 0 then removeAt e r (⟨.right, c, x, l⟩ :: path)
    else some (removeNode c l r path)

/-- Remove the member that is equal, if there is one. -/
def remove (t : RbTree α) (e : α) : RbTree α := (removeAt cmp e t []).getD t

end RbTree

/-! ### The walk -/

/-- A node in a tree. -/
structure Cursor (α : Type*) where
  color : Color
  l : RbTree α
  x : α
  r : RbTree α
  path : List (Crumb α)

namespace Cursor

/-- Up to the first parent that the way came to from the left. -/
def climb : RbTree α → List (Crumb α) → Option (Cursor α)
  | _, [] => none
  | t, b :: path =>
    match b.side with
    | .left => some ⟨b.color, t, b.key, b.sibling, path⟩
    | .right => climb (RbTree.plug b t) path

/-- The first node of a tree. -/
def down : RbTree α → List (Crumb α) → Option (Cursor α)
  | .nil, _ => none
  | .node c l x r, path =>
    match RbTree.leftmost c l x r path with
    | (c', x', r', path') => some ⟨c', .nil, x', r', path'⟩

/-- The next node. -/
def next (c : Cursor α) : Option (Cursor α) :=
  match c.r with
  | .nil => climb (.node c.color c.l c.x .nil) c.path
  | .node c' l' x' r' => down (.node c' l' x' r') (⟨.right, c.color, c.x, c.l⟩ :: c.path)

end Cursor

/-- The first node of the tree. -/
def RbTree.min (t : RbTree α) : Option (Cursor α) := Cursor.down t []

/-! ### The members stay in their order -/

namespace RbTree

/-- What is on the left of a subtree. -/
def before : List (Crumb α) → List α
  | [] => []
  | b :: path => before path ++ match b.side with
    | .left => []
    | .right => b.sibling.toList ++ [b.key]

/-- What is on the right of a subtree. -/
def after : List (Crumb α) → List α
  | [] => []
  | b :: path => (match b.side with
    | .left => b.key :: b.sibling.toList
    | .right => []) ++ after path

variable {cmp : α → α → ℤ} {t t' : RbTree α} {e : α}

@[simp] theorem toList_nil : (nil : RbTree α).toList = [] := rfl

@[simp] theorem toList_node (c : Color) (l : RbTree α) (x : α) (r : RbTree α) :
    (node c l x r).toList = l.toList ++ x :: r.toList := rfl

@[simp] theorem toList_setColor (c : Color) (t : RbTree α) : (t.setColor c).toList = t.toList := by
  cases t <;> rfl

@[simp] theorem toList_setChildColor (c : Color) (s : Side) (t : RbTree α) :
    (t.setChildColor c s).toList = t.toList := by
  cases s <;> cases t <;> simp [setChildColor]

@[simp] theorem toList_rotate (s : Side) (t : RbTree α) : (t.rotate s).toList = t.toList := by
  unfold rotate
  split <;> simp

theorem toList_plug (b : Crumb α) (t : RbTree α) :
    (plug b t).toList = before [b] ++ t.toList ++ after [b] := by
  unfold plug before after
  cases b.side <;> simp [before, after]

theorem toList_zip (path : List (Crumb α)) (t : RbTree α) :
    (zip path t).toList = before path ++ t.toList ++ after path := by
  induction path generalizing t with
  | nil => simp [zip, before, after]
  | cons b path ih =>
    unfold zip at ih ⊢
    rw [List.foldl_cons, ih, toList_plug]
    simp [before, after]

theorem before_append (p q : List (Crumb α)) : before (p ++ q) = before q ++ before p := by
  induction p with
  | nil => simp [before]
  | cons b p ih => simp [before, ih]

theorem after_append (p q : List (Crumb α)) : after (p ++ q) = after p ++ after q := by
  induction p with
  | nil => simp [after]
  | cons b p ih => simp [after, ih]

/-- What a parent holds beside the subtree does not depend on its colour and those of the sibling. -/
theorem toList_plug_congr {b b' : Crumb α} (hside : b'.side = b.side) (hkey : b'.key = b.key)
    (hsibling : b'.sibling.toList = b.sibling.toList) (ht : t'.toList = t.toList) :
    (plug b' t').toList = (plug b t).toList := by
  rw [toList_plug, toList_plug]
  simp only [before, after, hside, hkey, hsibling, ht]

theorem toList_zip_congr (path : List (Crumb α)) (h : t'.toList = t.toList) :
    (zip path t').toList = (zip path t).toList := by
  rw [toList_zip, toList_zip, h]

theorem zip_cons (b : Crumb α) (path : List (Crumb α)) (t : RbTree α) :
    zip (b :: path) t = zip path (plug b t) := rfl

/-! ### Insertion in order -/

@[simp] theorem toList_insertColor (t : RbTree α) (path : List (Crumb α)) :
    (insertColor t path).toList = (zip path t).toList := by
  induction t, path using insertColor.induct with
  | case1 t parent gparent path hred huncle ih =>
    rw [insertColor, if_pos hred, if_pos huncle, ih]
    apply toList_zip_congr
    refine toList_plug_congr (b := gparent) rfl rfl (toList_setColor _ _) ?_
    exact toList_plug_congr (b := parent) rfl rfl rfl rfl
  | case2 t parent gparent path hred huncle =>
    rw [insertColor, if_pos hred, if_neg huncle]
    apply toList_zip_congr
    rw [toList_rotate]
    refine toList_plug_congr (b := gparent) rfl rfl rfl ?_
    rw [toList_setColor]
    split
    · rfl
    · exact toList_rotate _ _
  | case3 t parent gparent path hred => rw [insertColor, if_neg hred]
  | case4 t path hshort =>
    unfold insertColor
    split
    · exact absurd rfl (hshort _ _ _)
    · rfl

/-- The comparison agrees with the order. -/
structure Agrees [LinearOrder α] (cmp : α → α → ℤ) (s : Set α) : Prop where
  lt : ∀ a ∈ s, ∀ b ∈ s, cmp a b < 0 ↔ a < b
  gt : ∀ a ∈ s, ∀ b ∈ s, 0 < cmp a b ↔ b < a

section

variable [LinearOrder α] {s : Set α}

/-- An element on the way down: its place is between what is less and what is greater. -/
theorem insertAt_spec (hc : Agrees cmp s) (he : e ∈ s) (hs : ∀ x ∈ t.toList, x ∈ s)
    (ho : t.toList.Pairwise (· < ·)) (path : List (Crumb α)) :
    (e ∈ t.toList ∧ insertAt cmp e t path = none) ∨
      ∃ a b t', t.toList = a ++ b ∧ (∀ x ∈ a, x < e) ∧ (∀ x ∈ b, e < x) ∧
        insertAt cmp e t path = some t' ∧ t'.toList = before path ++ a ++ e :: b ++ after path := by
  induction t generalizing path with
  | nil =>
    refine .inr ⟨[], [], _, rfl, ?_, ?_, rfl, ?_⟩
    · simp
    · simp
    · simp [toList_zip]
  | node c l x r ihl ihr =>
    rw [toList_node] at hs ho
    obtain ⟨hol, hor, hlr⟩ := List.pairwise_append.1 ho
    obtain ⟨hxr, hor⟩ := List.pairwise_cons.1 hor
    have hx : x ∈ s := hs x (by simp)
    rcases lt_trichotomy e x with hlt | rfl | hgt
    · have hcmp := (hc.lt e he x hx).2 hlt
      rw [insertAt, if_pos hcmp]
      rcases ihl (fun y hy => hs y (by simp [hy])) hol (⟨.left, c, x, r⟩ :: path) with h | h
      · exact .inl ⟨by simp [h.1], h.2⟩
      · obtain ⟨a, b, t', hab, ha, hb, ht', hlist⟩ := h
        refine .inr ⟨a, b ++ x :: r.toList, t', by simp [hab], ha, ?_, ht', ?_⟩
        · intro y hy
          rcases List.mem_append.1 hy with hy | hy
          · exact hb y hy
          · rcases List.mem_cons.1 hy with rfl | hy
            · exact hlt
            · exact hlt.trans (hxr y hy)
        · simp [hlist, before, after]
    · have hlt := mt (hc.lt e he e hx).1 (lt_irrefl e)
      have hgt := mt (hc.gt e he e hx).1 (lt_irrefl e)
      rw [insertAt, if_neg hlt, if_neg hgt]
      exact .inl ⟨by simp, rfl⟩
    · have hlt := mt (hc.lt e he x hx).1 hgt.not_gt
      have hcmp := (hc.gt e he x hx).2 hgt
      rw [insertAt, if_neg hlt, if_pos hcmp]
      rcases ihr (fun y hy => hs y (by simp [hy])) hor (⟨.right, c, x, l⟩ :: path) with h | h
      · exact .inl ⟨by simp [h.1], h.2⟩
      · obtain ⟨a, b, t', hab, ha, hb, ht', hlist⟩ := h
        refine .inr ⟨l.toList ++ x :: a, b, t', by simp [hab], ?_, hb, ht', ?_⟩
        · intro y hy
          rcases List.mem_append.1 hy with hy | hy
          · exact (hlr y hy x List.mem_cons_self).trans hgt
          · rcases List.mem_cons.1 hy with rfl | hy
            · exact hgt
            · exact ha y hy
        · simp [hlist, before, after]

theorem orderedInsert_append {a b : List α} (ha : ∀ x ∈ a, x < e) (hb : ∀ x ∈ b, e < x) :
    (a ++ b).orderedInsert (· ≤ ·) e = a ++ e :: b := by
  induction a with
  | nil =>
    cases b with
    | nil => rfl
    | cons y b => exact List.orderedInsert_cons_of_le _ _ (hb y List.mem_cons_self).le
  | cons y a ih =>
    rw [List.cons_append, List.orderedInsert_of_not_le _ _ (ha y List.mem_cons_self).not_ge,
      ih fun x hx => ha x (List.mem_cons_of_mem y hx)]
    rfl

/-- A new member comes to its place, and one that is there is refused. -/
theorem toList_insert (hc : Agrees cmp s) (he : e ∈ s) (hs : ∀ x ∈ t.toList, x ∈ s)
    (ho : t.toList.Pairwise (· < ·)) :
    (insert cmp t e).map toList =
      if e ∈ t.toList then none else some (t.toList.orderedInsert (· ≤ ·) e) := by
  rcases insertAt_spec hc he hs ho [] with ⟨hmem, h⟩ | ⟨a, b, t', hab, ha, hb, ht', hlist⟩
  · rw [insert, h, if_pos hmem]
    rfl
  · have hnot : e ∉ t.toList := by
      rw [hab, List.mem_append]
      rintro (h | h)
      · exact lt_irrefl e (ha e h)
      · exact lt_irrefl e (hb e h)
    rw [insert, ht', if_neg hnot, Option.map_some, hlist, hab, orderedInsert_append ha hb]
    simp [before, after]

omit [LinearOrder α] in
/-- A search finds only members, whatever the comparison. -/
theorem mem_of_find {x : α} (h : t.find cmp e = some x) : x ∈ t.toList := by
  induction t with
  | nil => exact absurd h nofun
  | node color l y r ihl ihr =>
    rw [find] at h
    rw [toList, List.mem_append, List.mem_cons]
    split at h
    · exact .inl (ihl h)
    · split at h
      · exact .inr (.inr (ihr h))
      · exact .inr (.inl (Option.some.inj h).symm)

theorem find_eq (hc : Agrees cmp s) (he : e ∈ s) (hs : ∀ x ∈ t.toList, x ∈ s)
    (ho : t.toList.Pairwise (· < ·)) : find cmp e t = if e ∈ t.toList then some e else none := by
  induction t with
  | nil => simp [find]
  | node c l x r ihl ihr =>
    rw [toList_node] at hs ho
    obtain ⟨hol, hor, hlr⟩ := List.pairwise_append.1 ho
    obtain ⟨hxr, hor⟩ := List.pairwise_cons.1 hor
    have hx : x ∈ s := hs x (by simp)
    rcases lt_trichotomy e x with hlt | rfl | hgt
    · rw [find, if_pos ((hc.lt e he x hx).2 hlt), ihl (fun y hy => hs y (by simp [hy])) hol]
      have hr : e ∉ r.toList := fun h => (hxr e h).not_gt hlt
      simp [hlt.ne, hr]
    · rw [find, if_neg (mt (hc.lt e he e hx).1 (lt_irrefl e)),
        if_neg (mt (hc.gt e he e hx).1 (lt_irrefl e))]
      simp
    · rw [find, if_neg (mt (hc.lt e he x hx).1 hgt.not_gt), if_pos ((hc.gt e he x hx).2 hgt),
        ihr (fun y hy => hs y (by simp [hy])) hor]
      have hl : e ∉ l.toList := fun h => (hlr e h x List.mem_cons_self).not_gt hgt
      simp [hgt.ne', hl]

end

/-! ### Removal in order -/

/-- What the repair at one node leaves, whether it is done or not. -/
theorem toList_removeColorAt (t : RbTree α) (parent : Crumb α) :
    (Sum.elim id id (removeColorAt t parent)).toList = (plug parent t).toList := by
  unfold removeColorAt
  dsimp only
  split
  · exact toList_plug_congr rfl rfl (toList_setColor _ _) rfl
  · simp only [Sum.elim_inr, id, toList_rotate]
    refine toList_plug_congr rfl rfl ?_ rfl
    dsimp only
    rw [toList_setChildColor, toList_setColor]
    split
    · rfl
    · simp

theorem toList_removeColor (t : RbTree α) (path : List (Crumb α)) :
    (removeColor t path).toList = (zip path t).toList := by
  induction path generalizing t with
  | nil => simp [removeColor, zip]
  | cons parent path ih =>
    unfold removeColor
    split
    · exact toList_zip_congr _ (toList_setColor _ _)
    split
    · next l x r hred =>
      -- the parent goes down and the sibling comes up
      have hrotate : ∀ near far, near = child parent.side (node .red l x r) →
          far = child parent.side.other (node .red l x r) →
          (plug ⟨parent.side, .black, x, far⟩
            (plug { parent with color := .red, sibling := near } t)).toList =
              (plug parent t).toList := by
        rintro near far rfl rfl
        cases hside : parent.side <;> simp [plug, hside, hred, child, Side.other]
      have hat := toList_removeColorAt t
        { parent with color := .red, sibling := child parent.side (node .red l x r) }
      dsimp only
      split
      all_goals
        next p hp =>
        rw [hp] at hat
        simp only [zip_cons, toList_setColor]
        apply toList_zip_congr
        rw [← hrotate _ _ rfl rfl]
        refine toList_plug_congr rfl rfl rfl ?_
        simpa using hat
    · have hat := toList_removeColorAt t parent
      split
      all_goals
        next p hp =>
        rw [hp] at hat
        simp only [ih, zip_cons, toList_setColor]
        exact toList_zip_congr _ hat

theorem toList_spliceOut (c : Color) (t : RbTree α) (path : List (Crumb α)) :
    (spliceOut c t path).toList = before path ++ t.toList ++ after path := by
  unfold spliceOut
  split
  · rw [toList_removeColor, toList_zip]
  · exact toList_zip _ _

/-- The first member of a tree and what comes after it. -/
theorem leftmost_spec {c c₁ : Color} {l r t₁ : RbTree α} {x x₁ : α} {path path₁ : List (Crumb α)}
    (h : leftmost c l x r path = (c₁, x₁, t₁, path₁)) :
    before path₁ = before path ∧
      x₁ :: t₁.toList ++ after path₁ = l.toList ++ x :: r.toList ++ after path := by
  induction l generalizing c x r path with
  | nil =>
    cases h
    exact ⟨rfl, rfl⟩
  | node c' l' x' r' ihl =>
    obtain ⟨hbefore, hafter⟩ := ihl h
    refine ⟨by simpa [before] using hbefore, ?_⟩
    rw [hafter]
    simp [after]

theorem toList_removeNode (c : Color) (l r : RbTree α) (path : List (Crumb α)) :
    (removeNode c l r path).toList = before path ++ (l.toList ++ r.toList) ++ after path := by
  unfold removeNode
  split
  · exact toList_spliceOut _ _ _
  · rw [toList_spliceOut]
    simp
  · next l c' l' x' r' hl =>
    rcases hleft : leftmost c' l' x' r' [] with ⟨c₁, x₁, t₁, down⟩
    obtain ⟨hbefore, hafter⟩ := leftmost_spec hleft
    dsimp only
    rw [toList_spliceOut, before_append, after_append, hbefore]
    simp only [before, after, List.append_nil, List.nil_append, List.append_assoc] at hafter ⊢
    rw [toList_node, ← hafter]
    simp

section

variable [LinearOrder α] {s : Set α}

theorem removeAt_spec (hc : Agrees cmp s) (he : e ∈ s) (hs : ∀ x ∈ t.toList, x ∈ s)
    (ho : t.toList.Pairwise (· < ·)) (path : List (Crumb α)) :
    (e ∉ t.toList ∧ removeAt cmp e t path = none) ∨
      e ∈ t.toList ∧ ∃ t', removeAt cmp e t path = some t' ∧
        t'.toList = before path ++ t.toList.erase e ++ after path := by
  induction t generalizing path with
  | nil => exact .inl ⟨by simp, rfl⟩
  | node c l x r ihl ihr =>
    rw [toList_node] at hs ho
    obtain ⟨hol, hor, hlr⟩ := List.pairwise_append.1 ho
    obtain ⟨hxr, hor⟩ := List.pairwise_cons.1 hor
    have hx : x ∈ s := hs x (by simp)
    rcases lt_trichotomy e x with hlt | rfl | hgt
    · have hr : e ∉ r.toList := fun h => (hxr e h).not_gt hlt
      rw [removeAt, if_pos ((hc.lt e he x hx).2 hlt)]
      rcases ihl (fun y hy => hs y (by simp [hy])) hol (⟨.left, c, x, r⟩ :: path) with h | h
      · exact .inl ⟨by simp [h.1, hlt.ne, hr], h.2⟩
      · obtain ⟨hmem, t', ht', hlist⟩ := h
        refine .inr ⟨by simp [hmem], t', ht', ?_⟩
        rw [hlist, toList_node, List.erase_append_left _ hmem]
        simp [before, after]
    · have hl : e ∉ l.toList := fun h => lt_irrefl e (hlr e h e List.mem_cons_self)
      rw [removeAt, if_neg (mt (hc.lt e he e hx).1 (lt_irrefl e)),
        if_neg (mt (hc.gt e he e hx).1 (lt_irrefl e))]
      refine .inr ⟨by simp, _, rfl, ?_⟩
      rw [toList_removeNode, toList_node, List.erase_append_right _ hl, List.erase_cons_head]
    · have hl : e ∉ l.toList := fun h => (hlr e h x List.mem_cons_self).not_gt hgt
      rw [removeAt, if_neg (mt (hc.lt e he x hx).1 hgt.not_gt), if_pos ((hc.gt e he x hx).2 hgt)]
      rcases ihr (fun y hy => hs y (by simp [hy])) hor (⟨.right, c, x, l⟩ :: path) with h | h
      · exact .inl ⟨by simp [h.1, hgt.ne', hl], h.2⟩
      · obtain ⟨hmem, t', ht', hlist⟩ := h
        refine .inr ⟨by simp [hmem], t', ht', ?_⟩
        rw [hlist, toList_node, List.erase_append_right _ hl, List.erase_cons_tail (by simp [hgt.ne])]
        simp [before, after]

theorem toList_remove (hc : Agrees cmp s) (he : e ∈ s) (hs : ∀ x ∈ t.toList, x ∈ s)
    (ho : t.toList.Pairwise (· < ·)) : (remove cmp t e).toList = t.toList.erase e := by
  unfold remove
  rcases removeAt_spec hc he hs ho [] with ⟨hnot, h⟩ | ⟨-, t', h, hlist⟩
  · rw [h, List.erase_of_not_mem hnot]
    rfl
  · rw [h]
    simpa [before, after] using hlist

end

end RbTree

/-! ### The walk in order -/

namespace Cursor

open RbTree

/-- What is left of the walk. -/
def toList : Option (Cursor α) → List α
  | none => []
  | some c => c.x :: c.r.toList ++ after c.path

theorem toList_climb (t : RbTree α) (path : List (Crumb α)) :
    toList (climb t path) = after path := by
  induction path generalizing t with
  | nil => rfl
  | cons b path ih =>
    unfold climb
    cases hside : b.side with
    | left => simp [toList, after, hside]
    | right => simp [ih, after, hside]

theorem toList_down (c : Color) (l : RbTree α) (x : α) (r : RbTree α) (path : List (Crumb α)) :
    toList (down (.node c l x r) path) = (node c l x r).toList ++ after path := by
  rcases hleft : leftmost c l x r path with ⟨c₁, x₁, t₁, path₁⟩
  unfold down
  dsimp only
  rw [hleft]
  exact (leftmost_spec hleft).2

/-- One step of the walk. -/
theorem toList_next (c : Cursor α) : toList c.next = (toList (some c)).tail := by
  unfold next
  split
  · next hr =>
    rw [toList_climb]
    simp [toList, hr]
  · next c' l' x' r' hr =>
    rw [toList_down]
    simp [toList, hr, after]

end Cursor

theorem RbTree.toList_min (t : RbTree α) : Cursor.toList t.min = t.toList := by
  unfold RbTree.min
  cases t with
  | nil => rfl
  | node c l x r =>
    rw [Cursor.toList_down]
    simp [after]

end Metatup.Lib
