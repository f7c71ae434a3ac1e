import Mathlib.Algebra.Order.Group.Unbundled.Int
import Mathlib.Data.List.Lex
import Mathlib.Data.List.Nodup

/-!
# Sorted tables

A table that is kept sorted by its keys, and the search for a key that halves an interval of
positions.

* `SortedTable.get_set`: what setting one key does to the others.
* `bisect_eq_lookup`: on a sorted table the search returns what the table holds.
* `pairwise_of_bisect`: a table in which every key is found is sorted.
-/

namespace Metatup.Lib

variable {κ β : Type*} [LinearOrder κ]

/-- Put a key in its place, over the value it has. -/
def insertKey (k : κ) (v : β) : List (κ × β) → List (κ × β)
  | [] => [(k, v)]
  | (n, w) :: t =>
    if n < k then (n, w) :: insertKey k v t
    else if k < n then (k, v) :: (n, w) :: t
    else (k, v) :: t

theorem mem_insertKey {k : κ} {v : β} {x : κ × β} {t : List (κ × β)} (h : x ∈ insertKey k v t) :
    x = (k, v) ∨ x ∈ t := by
  induction t with
  | nil => exact .inl (List.mem_singleton.1 h)
  | cons e t ih =>
    obtain ⟨n, w⟩ := e
    unfold insertKey at h
    split_ifs at h with hlt hgt
    · rcases List.mem_cons.1 h with rfl | h
      · exact .inr List.mem_cons_self
      · exact (ih h).imp_right (List.mem_cons_of_mem _)
    · exact List.mem_cons.1 h
    · exact (List.mem_cons.1 h).imp_right (List.mem_cons_of_mem _)

theorem pairwise_insertKey (k : κ) (v : β) {t : List (κ × β)}
    (h : t.Pairwise fun a b => a.1 < b.1) :
    (insertKey k v t).Pairwise fun a b => a.1 < b.1 := by
  induction t with
  | nil => exact List.pairwise_singleton _ _
  | cons e t ih =>
    obtain ⟨n, w⟩ := e
    obtain ⟨hhead, htail⟩ := List.pairwise_cons.1 h
    unfold insertKey
    split_ifs with hlt hgt
    · refine List.pairwise_cons.2 ⟨fun x hx => ?_, ih htail⟩
      rcases mem_insertKey hx with rfl | hx
      · exact hlt
      · exact hhead x hx
    · refine List.pairwise_cons.2 ⟨fun x hx => ?_, h⟩
      rcases List.mem_cons.1 hx with rfl | hx
      · exact hgt
      · exact hgt.trans (hhead x hx)
    · have heq : n = k := le_antisymm (not_lt.1 hgt) (not_lt.1 hlt)
      exact List.pairwise_cons.2 ⟨fun x hx => heq ▸ hhead x hx, htail⟩

theorem lookup_insertKey [BEq κ] [LawfulBEq κ] (k : κ) (v : β) (t : List (κ × β)) (q : κ) :
    (insertKey k v t).lookup q = if q = k then some v else t.lookup q := by
  induction t with
  | nil =>
    by_cases hq : q = k
    · simp [insertKey, hq]
    · have hbeq : (q == k) = false := beq_eq_false_iff_ne.2 hq
      simp [insertKey, List.lookup_cons, hq, hbeq]
  | cons e t ih =>
    obtain ⟨n, w⟩ := e
    unfold insertKey
    split_ifs with hlt hgt hq hq
    all_goals simp only [List.lookup_cons, ih]
    all_goals grind

/-- A table whose keys increase. -/
structure SortedTable (κ β : Type*) [LinearOrder κ] where
  entries : List (κ × β)
  sorted : entries.Pairwise fun a b => a.1 < b.1

namespace SortedTable

def empty : SortedTable κ β := ⟨[], .nil⟩

def set (t : SortedTable κ β) (k : κ) (v : β) : SortedTable κ β :=
  ⟨insertKey k v t.entries, pairwise_insertKey k v t.sorted⟩

def get [BEq κ] (t : SortedTable κ β) (k : κ) : Option β := t.entries.lookup k

@[simp] theorem get_empty [BEq κ] (k : κ) : (empty : SortedTable κ β).get k = none := rfl

@[simp] theorem get_set [BEq κ] [LawfulBEq κ] (t : SortedTable κ β) (k : κ) (v : β) (q : κ) :
    (t.set k v).get q = if q = k then some v else t.get q := lookup_insertKey k v t.entries q

/-- After several keys have been set, the last value of a key stands. -/
theorem get_foldl_set [BEq κ] [LawfulBEq κ] (l : List (κ × β)) (t : SortedTable κ β) (q : κ) :
    (l.foldl (fun t e => t.set e.1 e.2) t).get q = (l.reverse.lookup q).or (t.get q) := by
  induction l generalizing t with
  | nil => rfl
  | cons e l ih =>
    obtain ⟨k, v⟩ := e
    rw [List.foldl_cons, ih, get_set, List.reverse_cons, List.lookup_append, Option.or_assoc]
    congr 1
    by_cases hq : q = k
    · subst hq
      simp
    · have hbeq : (q == k) = false := beq_eq_false_iff_ne.2 hq
      simp [List.lookup_cons, hq, hbeq]

end SortedTable

/-! ### Search by halving -/

/-- What is learnt at one position: its key is below or above the one searched for, or the search
ends here. -/
inductive Probe (β : Type*)
  | below
  | above
  | done (r : Option β)

/-- Search the positions strictly between two bounds. -/
def bisect (probe : ℤ → Probe β) (left right : ℤ) : Option β :=
  if 0 < (right - left) / 2 then
    match probe ((right - left) / 2 + left) with
    | .below => bisect probe ((right - left) / 2 + left) right
    | .above => bisect probe left ((right - left) / 2 + left)
    | .done r => r
  else none
termination_by (right - left).toNat

section

variable {probe : ℤ → Probe β} {left right : ℤ}

/-- A result comes from a position between the bounds. -/
theorem probe_of_bisect {v : β} (h : bisect probe left right = some v) :
    ∃ i, left < i ∧ i < right ∧ probe i = .done (some v) := by
  fun_induction bisect probe left right with
  | case1 left right hpos hprobe ih =>
    obtain ⟨i, hleft, hright, hi⟩ := ih h
    exact ⟨i, by omega, hright, hi⟩
  | case2 left right hpos hprobe ih =>
    obtain ⟨i, hleft, hright, hi⟩ := ih h
    exact ⟨i, hleft, by omega, hi⟩
  | case3 left right hpos r hprobe =>
    exact ⟨_, by omega, by omega, h ▸ hprobe⟩
  | case4 => cases h

/-- Only the probes between the bounds matter. -/
theorem bisect_congr {probe' : ℤ → Probe β}
    (h : ∀ j, left < j → j < right → probe j = probe' j) :
    bisect probe left right = bisect probe' left right := by
  fun_induction bisect probe left right with
  | case1 left right hpos hprobe ih =>
    rw [bisect.eq_1 probe', if_pos hpos, ← h _ (by omega) (by omega), hprobe]
    exact ih fun j hj => h j (by omega)
  | case2 left right hpos hprobe ih =>
    rw [bisect.eq_1 probe', if_pos hpos, ← h _ (by omega) (by omega), hprobe]
    exact ih fun j hj hj' => h j hj (by omega)
  | case3 left right hpos r hprobe =>
    rw [bisect.eq_1 probe', if_pos hpos, ← h _ (by omega) (by omega), hprobe]
  | case4 left right hpos => rw [bisect.eq_1 probe', if_neg hpos]

/-- The position the probes point to is found. -/
theorem bisect_of_bracket {i : ℤ} {r : Option β} (hleft : left < i) (hright : i < right)
    (hi : probe i = .done r) (hbelow : ∀ j, left < j → j < i → probe j = .below)
    (habove : ∀ j, i < j → j < right → probe j = .above) :
    bisect probe left right = r := by
  fun_induction bisect probe left right with
  | case1 left right hpos hprobe ih =>
    have hlt : (right - left) / 2 + left < i := by
      by_contra hge
      rcases (not_lt.1 hge).lt_or_eq with hlt | heq
      · simp [habove _ hlt (by omega)] at hprobe
      · simp [← heq, hi] at hprobe
    exact ih hlt hright (fun j hj => hbelow j (by omega)) habove
  | case2 left right hpos hprobe ih =>
    have hlt : i < (right - left) / 2 + left := by
      by_contra hge
      rcases (not_lt.1 hge).lt_or_eq with hlt | heq
      · simp [hbelow _ (by omega) hlt] at hprobe
      · simp [heq, hi] at hprobe
    exact ih hleft hlt hbelow (fun j hj hj' => habove j hj (by omega))
  | case3 left right hpos r' hprobe =>
    have heq : (right - left) / 2 + left = i := by
      rcases lt_trichotomy ((right - left) / 2 + left) i with hlt | heq | hgt
      · simp [hbelow _ (by omega) hlt] at hprobe
      · exact heq
      · simp [habove _ hgt (by omega)] at hprobe
    rw [heq, hi] at hprobe
    exact (Probe.done.inj hprobe).symm
  | case4 => omega

/-- Two searches that end at neighbouring positions are told apart at one of the two. -/
theorem probe_of_bisect_neighbours {probe' : ℤ → Probe β} {i : ℤ} {v v' : β}
    (hleft : left < i) (hright : i + 1 < right)
    (hdone : ∀ j r, left < j → j < right → probe j = .done r → j = i)
    (hdone' : ∀ j r, left < j → j < right → probe' j = .done r → j = i + 1)
    (h : bisect probe left right = some v) (h' : bisect probe' left right = some v') :
    probe' i = .below ∨ probe (i + 1) = .above := by
  fun_induction bisect probe left right with
  | case1 left right hpos hprobe ih =>
    obtain ⟨j, hj, hj', hjp⟩ := probe_of_bisect h
    have hji := hdone j _ (by omega) hj' hjp
    rw [bisect, if_pos hpos] at h'
    split at h' <;> rename_i hprobe'
    · exact ih (by omega) hright (fun j r hj => hdone j r (by omega))
        (fun j r hj => hdone' j r (by omega)) h h'
    · obtain ⟨l, hl, hl', hlp⟩ := probe_of_bisect h'
      have := hdone' l _ hl (by omega) hlp
      omega
    · have := hdone' _ _ (by omega) (by omega) hprobe'
      omega
  | case2 left right hpos hprobe ih =>
    obtain ⟨j, hj, hj', hjp⟩ := probe_of_bisect h
    have hji := hdone j _ hj (by omega) hjp
    rw [bisect, if_pos hpos] at h'
    split at h' <;> rename_i hprobe'
    · obtain ⟨l, hl, hl', hlp⟩ := probe_of_bisect h'
      have := hdone' l _ (by omega) hl' hlp
      omega
    · obtain ⟨l, hl, hl', hlp⟩ := probe_of_bisect h'
      have := hdone' l _ hl (by omega) hlp
      exact ih hleft (by omega) (fun j r hj hj' => hdone j r hj (by omega))
        (fun j r hj hj' => hdone' j r hj (by omega)) h h'
    · have heq := hdone' _ _ (by omega) (by omega) hprobe'
      exact .inr (heq ▸ hprobe)
  | case3 left right hpos r hprobe =>
    have heq := hdone _ _ (by omega) (by omega) hprobe
    rw [bisect, if_pos hpos, heq] at h'
    split at h' <;> rename_i hprobe'
    · exact .inl hprobe'
    · obtain ⟨l, hl, hl', hlp⟩ := probe_of_bisect h'
      have := hdone' l _ hl (by omega) hlp
      omega
    · have := hdone' _ _ (by omega) (by omega) hprobe'
      omega
  | case4 => cases h

end

/-! ### Search in a table -/

/-- Compare the key at a position with the one searched for. -/
def probeAt (t : List (κ × β)) (k : κ) (j : ℤ) : Probe β :=
  match t[j.toNat]? with
  | none => .done none
  | some (n, v) => if n < k then .below else if k < n then .above else .done (some v)

section

variable {t : List (κ × β)} {k : κ} {v : β} {j : ℤ}

theorem probeAt_done (h : probeAt t k j = .done (some v)) : t[j.toNat]? = some (k, v) := by
  unfold probeAt at h
  split at h
  · cases h
  · rename_i n w hj
    split_ifs at h with hlt hgt
    obtain rfl : n = k := le_antisymm (not_lt.1 hgt) (not_lt.1 hlt)
    cases h
    exact hj

/-- On a table whose keys increase the search returns what the table holds. -/
theorem bisect_eq_lookup [BEq κ] [LawfulBEq κ] (h : t.Pairwise fun a b => a.1 < b.1) (k : κ) :
    bisect (probeAt t k) (-1) t.length = t.lookup k := by
  have hnodup : (t.map Prod.fst).Nodup := (List.pairwise_map.2 h).imp fun h => h.ne
  cases hl : t.lookup k with
  | none =>
    cases hb : bisect (probeAt t k) (-1) t.length with
    | none => rfl
    | some v =>
      obtain ⟨j, -, -, hj⟩ := probe_of_bisect hb
      have hmem := List.mem_of_getElem? (probeAt_done hj)
      rw [List.lookup_eq_none_iff] at hl
      simpa using hl _ hmem
  | some v =>
    obtain ⟨l₁, l₂, rfl, -⟩ := List.lookup_eq_some_iff.1 hl
    obtain ⟨-, htail, hlt⟩ := List.pairwise_append.1 h
    have hpos : ∀ i : ℕ, l₁.length < i → i < (l₁ ++ (k, v) :: l₂).length →
        ∃ e ∈ l₂, (l₁ ++ (k, v) :: l₂)[i]? = some e := by
      intro i hi hlen
      have hi' : i - l₁.length - 1 < l₂.length := by simp at hlen; omega
      refine ⟨l₂[i - l₁.length - 1], List.getElem_mem _, ?_⟩
      rw [List.getElem?_append_right (by omega), List.getElem?_cons, if_neg (by omega),
        List.getElem?_eq_getElem]
    apply bisect_of_bracket (i := l₁.length) (by omega) (by simp)
    · simp [probeAt]
    · intro j hj hj'
      have hlen : j.toNat < l₁.length := by omega
      have := hlt _ (List.getElem_mem hlen) (k, v) List.mem_cons_self
      simp [probeAt, List.getElem?_append_left hlen, List.getElem?_eq_getElem hlen, this]
    · intro j hj hj'
      obtain ⟨e, he, hej⟩ := hpos j.toNat (by omega) (by omega)
      have := (List.pairwise_cons.1 htail).1 e he
      simp [probeAt, hej, this, this.not_gt]

/-- A table of different keys in which every key is found is sorted. -/
theorem pairwise_of_bisect (hnodup : (t.map Prod.fst).Nodup)
    (h : ∀ e ∈ t, bisect (probeAt t e.1) (-1) t.length ≠ none) :
    t.Pairwise fun a b => a.1 < b.1 := by
  -- A search for a key in the table can only end at its own position.
  have hdone : ∀ (i : ℕ) (hi : i < t.length) (j : ℤ) (r : Option β), -1 < j → j < t.length →
      probeAt t t[i].1 j = .done r → j = i := by
    intro i hi j r hj hj' hp
    have hlen : j.toNat < t.length := by omega
    unfold probeAt at hp
    simp only [List.getElem?_eq_getElem hlen] at hp
    split_ifs at hp with hlt hgt
    have heq : t[j.toNat].1 = t[i].1 := le_antisymm (not_lt.1 hgt) (not_lt.1 hlt)
    have hidx : j.toNat = i := (List.getElem?_inj (by simpa) hnodup).1 (by simp [hi, hlen, heq])
    omega
  rw [← List.isChain_iff_pairwise, List.isChain_iff_getElem]
  intro i hi
  obtain ⟨v, hv⟩ := Option.ne_none_iff_exists'.1 (h t[i] (List.getElem_mem _))
  obtain ⟨w, hw⟩ := Option.ne_none_iff_exists'.1 (h t[i + 1] (List.getElem_mem hi))
  have hside := probe_of_bisect_neighbours (i := i) (by omega) (by omega)
    (fun j r => hdone i (by omega) j r)
    (fun j r hj hj' hp => by simpa using hdone (i + 1) hi j r hj hj' hp) hv hw
  have hi' : ((i : ℤ) + 1).toNat = i + 1 := by omega
  simp only [probeAt, Int.toNat_natCast, hi', List.getElem?_eq_getElem hi,
    List.getElem?_eq_getElem (Nat.lt_of_succ_lt hi)] at hside
  rcases hside with hside | hside
  · by_contra hge
    rw [if_neg hge] at hside
    split at hside <;> cases hside
  · by_contra hge
    rw [if_neg hge] at hside
    split at hside <;> cases hside

end

end Metatup.Lib
