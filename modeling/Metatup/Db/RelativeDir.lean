import Metatup.Db.FileNode
import Metatup.Lib.TreePath
import Metatup.Parser.Brdir
import Metatup.Parser.NameList

/-!
# The path from one node to another

How the path of a node relative to a directory is printed, and how a path is followed from a directory
through the nodes.

* `getRelativeDirSep`: the path that is printed, with `getRelativeDirSep_eq` for the names alone.
* `findDirTupidDt`: the node a path leads to.
* `FullPath`: the nodes from the top to a node.
* `relativeDir_inverse`: the path that is printed leads to the node, and none is shorter.
-/

namespace Metatup

open Lib

/-! ### Printing -/

/-- The walk of `get_full_path_tents`, which adds at the head; the fuel bounds its length. -/
def fullPathLoop (db : Db) : ℕ → TupEntry → List TupEntry → Option (List TupEntry)
  | 0, _, _ => none
  | fuel + 1, tent, head =>
    match tupEntryAdd db tent.dt with
    | some parent => fullPathLoop db fuel parent (tent :: head)
    | none => some (tent :: head)

/-- Source: `entry.c` `get_full_path_tents` -/
def getFullPathTents (db : Db) (i : TupId) : Option (List TupEntry) := do
  let tent ← tupEntryAdd db i
  fullPathLoop db db.node.length tent []

/-- The loops of `get_relative_dir_sep` that print; the flag is `first`. -/
def printSep (sep : Char) (s : Bool × Text) (names : List Text) : Bool × Text :=
  names.foldl (fun s name => (true, (if s.1 then s.2 ++ [sep] else s.2) ++ name)) s

/-- Source: `entry.c` `get_relative_dir_sep` -/
def getRelativeDirSep (db : Db) (start end_ : TupId) (sep : Char) : Option Text := do
  let startlist ← getFullPathTents db start
  let endlist ← getFullPathTents db end_
  let (startlist, endlist) := stripShared startlist endlist
  let s := printSep sep (false, []) (startlist.map fun _ => dotdot)
  let s := printSep sep s (endlist.map TupEntry.name)
  return if s.1 then s.2 else s.2 ++ ['.']

/-! ### Following a path -/

/-- Source: `fileio.h` `SOTGV_NO_GHOST` and the others -/
inductive Sotgv
  | noGhost | createGhosts | createDirs | ignoreDirs
  deriving DecidableEq

/-- What `find_dir_tupid_dt` is given besides the path. -/
structure FindMode where
  sotgv : Sotgv
  fullDeps : Bool
  /-- The path of the project. -/
  top : Text
  /-- The node of the root directory. -/
  slashDt : TupId
  /-- `get_outside_tup_mtime` -/
  outsideMtime : TupId → Text → Option (Int × Int)

/-- What `find_dir_tupid_dt_pg` does with a name that is not there. -/
def createPel (mode : FindMode) (outside : Bool) (db : Db) (dt : TupId) (pel : Text) :
    Option (Db × TupEntry) :=
  if mode.sotgv = .noGhost then none
  else do
    let type := if mode.sotgv = .createDirs then .generatedDir
      else if mode.sotgv = .ignoreDirs ∧ !outside then .dir else .ghost
    let mtime ← if mode.fullDeps && outside then mode.outsideMtime dt pel else some (-1, 0)
    tupDbNodeInsertTentDisplay db { tupid := 0, dt := dt, type := type, name := pel, mtime := mtime }

/-- What `find_dir_tupid_dt_pg` does with a name that is there. -/
def enterPel (mode : FindMode) (db : Db) (tent : TupEntry) : Option Db :=
  if mode.sotgv = .createDirs then
    if tent.type = .ghost then some ((tupDbSetType db tent.tupid .generatedDir).addModify tent.tupid)
    else if tent.type ≠ .dir ∧ tent.type ≠ .generatedDir then none
    else some db
  else some db

/-- The loop of `find_dir_tupid_dt_pg`; the id is `0` for a path that climbs out of the top. -/
def findDirLoop (mode : FindMode) (outside : Bool) : Db → TupEntry → List Text → Option (Db × TupId)
  | db, tent, [] => some (db, tent.tupid)
  | db, tent, pel :: rest =>
    if pel = dotdot then
      match tupEntryAdd db tent.dt with
      | none => some (db, 0)
      | some parent => findDirLoop mode outside db parent rest
    else
      match tupDbSelectTent db tent.tupid pel with
      | some tent => do
        let db ← enterPel mode db tent
        findDirLoop mode outside db tent rest
      | none => do
        let (db, tent) ← createPel mode outside db tent.tupid pel
        findDirLoop mode outside db tent rest

/-- Source: `create_name_file.c` `find_dir_tupid_dt_pg`, without `last` -/
def findDirTupidDtPg (mode : FindMode) (db : Db) (dt : TupId) (pg : PelGroup) : Option (Db × TupId) :=
  if pg.hidden then some (db, 0)
  else if !mode.fullDeps && pg.outsideTup then some (db, 0)
  else if pg.pathList = [] then (tupEntryAdd db dt).map fun _ => (db, dt)
  else do
    let dt := if pg.outsideTup then mode.slashDt else if pg.root then dotDt else dt
    let tent ← tupEntryAdd db dt
    findDirLoop mode pg.outsideTup db tent pg.pathList

/-- Source: `create_name_file.c` `find_dir_tupid_dt` with `last` being `NULL` -/
def findDirTupidDt (mode : FindMode) (db : Db) (dt : TupId) (dir : Text) : Option (Db × TupId) :=
  findDirTupidDtPg mode db dt (getPathElements mode.top dir)

/-! ### What is meant -/

/-- The entries of one tree: they have one top, and a directory has one entry of a name. -/
structure Db.Rooted (db : Db) : Prop extends Db.Tree db where
  dir : ∀ t ∈ db.node, (t.tupid = dotDt ∧ t.dt = 0) ∨ HasNode db t.dt
  pos : ∀ t ∈ db.node, 0 < t.tupid

theorem Db.Sound.rooted {db : Db} (h : db.Sound) : db.Rooted :=
  { h.tree with dir := h.referential.dir, pos := h.pos }

/-- A name that a path can have: no separator in it, and not one that is ignored. -/
structure ProperName (name : Text) : Prop extends IsName name where
  not_ignored : pelIgnored name = false

instance (name : Text) : Decidable (ProperName name) :=
  decidable_of_iff (IsName name ∧ pelIgnored name = false)
    ⟨fun h => ⟨h.1, h.2⟩, fun h => ⟨h.toIsName, h.not_ignored⟩⟩

/-- One step of a path through the entries that are there. -/
def tentStep (db : Db) (t : TupEntry) (name : Text) : Option TupEntry :=
  if name = dotdot then tupEntryAdd db t.dt else tupDbSelectTent db t.tupid name

/-- The path leads from one entry to the other. -/
def LeadsTo (db : Db) (s e : TupEntry) (p : List Text) : Prop := p.foldlM (tentStep db) s = some e

/-- A path without anything that could be left out: its text consists of its names, no name is taken
back, and no path through the entries has fewer names. -/
structure Irredundant (db : Db) (s e : TupEntry) (text : Text) : Prop where
  text_eq : text = joinNames (namesOf text)
  no_dot : ['.'] ∉ namesOf text
  normal : norm dotdot (namesOf text) = namesOf text
  leads : LeadsTo db s e (namesOf text)
  shortest : ∀ p, LeadsTo db s e p → (namesOf text).length ≤ p.length

/-- The entry is a directory, or a ghost that can become one. -/
def TupEntry.CanBeDir (t : TupEntry) : Prop :=
  t.type = .dir ∨ t.type = .generatedDir ∨ t.type = .ghost

instance (t : TupEntry) : Decidable t.CanBeDir := by
  unfold TupEntry.CanBeDir
  infer_instance

/-! ### The nodes from the top -/

/-- The nodes from the top to a node. -/
inductive FullPath (db : Db) : TupEntry → List TupEntry → Prop
  | top {t : TupEntry} (h : tupEntryAdd db t.dt = none) : FullPath db t [t]
  | inside {t p : TupEntry} {l : List TupEntry} (h : tupEntryAdd db t.dt = some p) (hp : FullPath db p l) :
    FullPath db t (l ++ [t])

section

variable {db : Db} {s e t u : TupEntry} {l l' c m : List TupEntry}

theorem FullPath.ne_nil (h : FullPath db t l) : l ≠ [] := by
  cases h <;> simp

theorem FullPath.unique (h : FullPath db t l) (h' : FullPath db t l') : l = l' := by
  induction h generalizing l' with
  | top hnone =>
    cases h' with
    | top => rfl
    | inside hp => rw [hnone] at hp; cases hp
  | inside hp _ ih =>
    cases h' with
    | top hnone => rw [hnone] at hp; cases hp
    | inside hp' hl' =>
      rw [hp] at hp'
      cases hp'
      rw [ih hl']

/-- What stands last is the node, and before it its directory. -/
theorem FullPath.concat_inv (h : FullPath db t (l ++ [u])) : u = t ∧
    (l = [] ∧ tupEntryAdd db t.dt = none ∨ ∃ p, tupEntryAdd db t.dt = some p ∧ FullPath db p l) := by
  generalize hm : l ++ [u] = m at h
  cases h with
  | top hnone =>
    obtain ⟨rfl, hu⟩ := List.append_inj' (hm.trans (List.nil_append [t]).symm) rfl
    exact ⟨List.singleton_inj.1 hu, .inl ⟨rfl, hnone⟩⟩
  | inside hp hl =>
    obtain ⟨rfl, hu⟩ := List.append_inj' hm rfl
    exact ⟨List.singleton_inj.1 hu, .inr ⟨_, hp, hl⟩⟩

/-- The nodes above are the first part. -/
theorem FullPath.initial (h : FullPath db e (c ++ t :: m)) : FullPath db t (c ++ [t]) := by
  induction m using List.reverseRecOn generalizing e with
  | nil => exact h.concat_inv.1 ▸ h
  | append_singleton m x ih =>
    rw [← List.cons_append, ← List.append_assoc] at h
    rcases h.concat_inv.2 with ⟨hnil, -⟩ | ⟨p, -, hp⟩
    · simp at hnil
    · exact ih hp

theorem FullPath.mem (h : FullPath db e l) (he : e ∈ db.node) (ht : t ∈ l) :
    t ∈ db.node ∧ UnderNode db e.tupid t.tupid := by
  induction h with
  | top =>
    rw [List.mem_singleton.1 ht]
    exact ⟨he, .refl⟩
  | inside hp _ ih =>
    obtain ⟨hmem, hid⟩ := mem_node_of_tupEntryAdd hp
    rcases List.mem_append.1 ht with ht | ht
    · obtain ⟨htn, hunder⟩ := ih hmem ht
      exact ⟨htn, .head ⟨_, he, rfl, hid.symm⟩ hunder⟩
    · rw [List.mem_singleton.1 ht]
      exact ⟨he, .refl⟩

theorem Db.Rooted.exists_fullPath (h : db.Rooted) (ht : t ∈ db.node) :
    ∃ l, FullPath db t l ∧ l.length ≤ db.node.length := by
  obtain ⟨depth, hd⟩ := h.depth
  have key : ∀ n, ∀ t ∈ db.node, depth t.tupid ≤ n → ∃ l, FullPath db t l ∧
      l.Pairwise (fun a b => depth a.tupid < depth b.tupid) ∧
      ∀ a ∈ l, a ∈ db.node ∧ depth a.tupid ≤ depth t.tupid := by
    intro n
    induction n with
    | zero =>
      intro t ht hn
      have := hd t ht
      omega
    | succ n ih =>
      intro t ht hn
      have hlt := hd t ht
      rcases hp : tupEntryAdd db t.dt with _ | p
      · exact ⟨[t], .top hp, List.pairwise_singleton _ _, by simp [ht]⟩
      · obtain ⟨hmem, hid⟩ := mem_node_of_tupEntryAdd hp
        obtain ⟨l, hl, hpair, hall⟩ := ih p hmem (by rw [hid]; omega)
        rw [hid] at hall
        refine ⟨l ++ [t], .inside hp hl, ?_, fun a ha => ?_⟩
        · refine List.pairwise_append.2 ⟨hpair, List.pairwise_singleton _ _, fun a ha b hb => ?_⟩
          rw [List.mem_singleton.1 hb]
          exact (hall a ha).2.trans_lt hlt
        · rcases List.mem_append.1 ha with ha | ha
          · exact ⟨(hall a ha).1, (hall a ha).2.trans hlt.le⟩
          · rw [List.mem_singleton.1 ha]
            exact ⟨ht, le_rfl⟩
  obtain ⟨l, hl, hpair, hall⟩ := key _ t ht le_rfl
  refine ⟨l, hl, ?_⟩
  have hnodup : l.Nodup := hpair.imp fun hlt heq => by simp [heq] at hlt
  exact (hnodup.subperm fun a ha => (hall a ha).1).length_le

theorem fullPathLoop_eq (h : FullPath db t l) {fuel : ℕ} (hfuel : l.length ≤ fuel)
    (head : List TupEntry) : fullPathLoop db fuel t head = some (l ++ head) := by
  induction h generalizing fuel head with
  | top hnone =>
    rcases fuel with _ | fuel
    · cases hfuel
    · rw [fullPathLoop, hnone]
      rfl
  | inside hp _ ih =>
    rw [List.length_append, List.length_singleton] at hfuel
    rcases fuel with _ | fuel
    · cases hfuel
    · rw [fullPathLoop, hp]
      dsimp only
      rw [ih (Nat.le_of_succ_le_succ hfuel), List.append_assoc]
      rfl

theorem Db.Rooted.getFullPathTents_eq (h : db.Rooted) (ht : t ∈ db.node) :
    ∃ l, FullPath db t l ∧ getFullPathTents db t.tupid = some l := by
  obtain ⟨l, hl, hlen⟩ := h.exists_fullPath ht
  refine ⟨l, hl, ?_⟩
  unfold getFullPathTents
  rw [h.tupEntryAdd_of_mem ht]
  have hloop := fullPathLoop_eq hl hlen []
  rw [List.append_nil] at hloop
  exact hloop

/-- All nodes are below one top. -/
theorem Db.Rooted.fullPath_head (h : db.Rooted) (ht : t ∈ db.node) (hl : FullPath db t l) :
    ∃ r ∈ db.node, r.tupid = dotDt ∧ ∃ m, l = r :: m := by
  induction hl with
  | @top t hnone =>
    rcases h.dir t ht with ⟨hdot, -⟩ | hnode
    · exact ⟨t, ht, hdot, [], rfl⟩
    · unfold HasNode at hnode
      rw [hnone] at hnode
      cases hnode
  | @inside t p l hp _ ih =>
    obtain ⟨r, hr, hdot, m, rfl⟩ := ih (mem_node_of_tupEntryAdd hp).1
    exact ⟨r, hr, hdot, m ++ [t], rfl⟩

/-- Only the first node is the top. -/
theorem Db.Rooted.ne_dot (h : db.Rooted) (he : e ∈ db.node) (hl : FullPath db e (c ++ t :: m))
    (hc : c ≠ []) : t.tupid ≠ dotDt := by
  intro hdot
  obtain ⟨htn, -⟩ := hl.mem he (t := t) (by simp)
  obtain ⟨r, hr, hrdot, m', hm'⟩ := h.fullPath_head he hl
  obtain rfl := h.eq_of_tupid hr htn (hrdot.trans hdot.symm)
  have htop : FullPath db r ([] ++ [r]) := by
    apply FullPath.initial (e := e) (m := m')
    rw [List.nil_append, ← hm']
    exact hl
  exact hc (List.append_cancel_right (hl.initial.unique htop))

theorem FullPath.getLast (h : FullPath db t l) : l.getLast? = some t := by
  cases h <;> simp

/-- A node behind others is in the directory that is the last of them. -/
theorem Db.Rooted.select_of_fullPath (h : db.Rooted) (hu : FullPath db u c)
    (he : e ∈ db.node) (hl : FullPath db e (c ++ t :: m)) :
    FullPath db t (c ++ [t]) ∧ tupDbSelectTent db u.tupid t.name = some t := by
  have hpre := hl.initial
  refine ⟨hpre, ?_⟩
  rcases hpre.concat_inv.2 with ⟨hnil, -⟩ | ⟨p, hp, hpc⟩
  · exact absurd hnil hu.ne_nil
  · have hpu : some p = some u := hpc.getLast.symm.trans hu.getLast
    obtain rfl := Option.some.inj hpu
    rw [select_eq_some_iff h.toTree]
    refine ⟨(hl.mem he (t := t) (by simp)).1, Prod.ext ?_ rfl⟩
    exact (mem_node_of_tupEntryAdd hp).2.symm

end

/-! ### Following the nodes -/

section

variable {db db₁ db₂ : Db} {s e t t' u : TupEntry} {l l' c m : List TupEntry} {mode : FindMode}
  {outside : Bool} {name : Text} {p : List Text}

/-- The same names lead to the same nodes; at most a ghost has become a directory. -/
def SameNames (db db₁ : Db) : Prop := ∀ dt name t, tupDbSelectTent db dt name = some t →
  ∃ t₁, tupDbSelectTent db₁ dt name = some t₁ ∧ t₁.tupid = t.tupid ∧
    (t₁.type = t.type ∨ t₁.type = .generatedDir)

theorem SameNames.refl (db : Db) : SameNames db db := fun _ _ t ht => ⟨t, ht, rfl, .inl rfl⟩

theorem SameNames.trans (h : SameNames db db₁) (h₁ : SameNames db₁ db₂) : SameNames db db₂ := by
  intro dt name t ht
  obtain ⟨t₁, ht₁, hid₁, htype₁⟩ := h dt name t ht
  obtain ⟨t₂, ht₂, hid₂, htype₂⟩ := h₁ dt name t₁ ht₁
  refine ⟨t₂, ht₂, hid₂.trans hid₁, ?_⟩
  rcases htype₂ with htype₂ | htype₂
  · exact htype₁.imp htype₂.trans htype₂.trans
  · exact .inr htype₂

theorem SameNames.setGeneratedDir (db : Db) (i : TupId) :
    SameNames db ((tupDbSetType db i .generatedDir).addModify i) := by
  intro dt name t ht
  have key : ∀ l : List TupEntry,
      (l.map fun t => if t.tupid = i then { t with type := NodeType.generatedDir } else t).find?
        (fun t => t.dt = dt && t.name = name) = (l.find? fun t => t.dt = dt && t.name = name).map
          fun t => if t.tupid = i then { t with type := .generatedDir } else t := by
    intro l
    rw [List.find?_map]
    congr 2
    funext t
    dsimp only [Function.comp]
    split <;> rfl
  have hsel : tupDbSelectTent ((tupDbSetType db i .generatedDir).addModify i) dt name =
      some (if t.tupid = i then { t with type := .generatedDir } else t) :=
    (key db.node).trans (by rw [show db.node.find? _ = some t from ht]; rfl)
  refine ⟨_, hsel, ?_⟩
  split
  · exact ⟨rfl, .inr rfl⟩
  · exact ⟨rfl, .inl rfl⟩

theorem enterPel_spec (db : Db) (hdir : mode.sotgv = .createDirs → t.CanBeDir) :
    ∃ db', enterPel mode db t = some db' ∧ SameNames db db' ∧
      ((mode.sotgv = .createDirs → t.type ≠ .ghost) → db' = db) := by
  unfold enterPel
  split
  · next hmode =>
    split
    · next hghost =>
      exact ⟨_, rfl, .setGeneratedDir db t.tupid, fun hne => absurd hghost (hne hmode)⟩
    · next hghost =>
      rw [if_neg]
      · exact ⟨db, rfl, .refl db, fun _ => rfl⟩
      · rintro ⟨hnd, hng⟩
        rcases hdir hmode with hd | hd | hd
        · exact hnd hd
        · exact hng hd
        · exact hghost hd
  · exact ⟨db, rfl, .refl db, fun _ => rfl⟩

/-- Climbing from a node to one that it is below of. -/
theorem climb_fullPath (hc : c ≠ []) (h : FullPath db t (c ++ m)) : ∃ u, FullPath db u c ∧
    (List.replicate m.length dotdot).foldlM (tentStep db) t = some u ∧
    ∀ mode outside rest, findDirLoop mode outside db t (List.replicate m.length dotdot ++ rest) =
      findDirLoop mode outside db u rest := by
  induction m using List.reverseRecOn generalizing t with
  | nil => exact ⟨t, by simpa using h, rfl, fun _ _ _ => rfl⟩
  | append_singleton m x ih =>
    rw [← List.append_assoc] at h
    rcases h.concat_inv.2 with ⟨hnil, -⟩ | ⟨p, hp, hpl⟩
    · exact absurd (List.append_eq_nil_iff.1 hnil).1 hc
    · obtain ⟨u, hu, hfold, hloop⟩ := ih hpl
      have hlen : (m ++ [x]).length = m.length + 1 := List.length_append
      rw [hlen, List.replicate_succ]
      refine ⟨u, hu, ?_, fun mode outside rest => ?_⟩
      · have hstep : tentStep db t dotdot = some p := by
          rw [tentStep, if_pos rfl]
          exact hp
        rw [List.foldlM_cons, hstep]
        exact hfold
      · rw [List.cons_append, findDirLoop, if_pos rfl, hp]
        exact hloop mode outside rest

/-- Descending from a node to one below it. -/
theorem descend_fullPath (h : db.Rooted) (hu : FullPath db u c) (he : e ∈ db.node)
    (hl : FullPath db e (c ++ m)) (hnames : ∀ t ∈ m, t.name ≠ dotdot) :
    (m.map TupEntry.name).foldlM (tentStep db) u = some e := by
  induction m generalizing u c with
  | nil =>
    rw [List.append_nil] at hl
    exact hu.getLast.symm.trans hl.getLast
  | cons t m ih =>
    obtain ⟨hpre, hsel⟩ := h.select_of_fullPath hu he hl
    have hstep : tentStep db u t.name = some t := by
      rw [tentStep, if_neg (hnames t List.mem_cons_self)]
      exact hsel
    rw [List.map_cons, List.foldlM_cons, hstep]
    rw [List.append_cons] at hl
    exact ih hpre hl fun x hx => hnames x (List.mem_cons_of_mem t hx)

theorem findDirLoop_descend (h : db.Rooted) (hu : FullPath db u c) (he : e ∈ db.node)
    (hl : FullPath db e (c ++ m)) (hnames : ∀ t ∈ m, t.name ≠ dotdot)
    (hdirs : mode.sotgv = .createDirs → ∀ t ∈ m, t.CanBeDir) {u₁ : TupEntry} (hu₁ : u₁.tupid = u.tupid)
    (hsame : SameNames db db₁) : ∃ db',
      findDirLoop mode outside db₁ u₁ (m.map TupEntry.name) = some (db', e.tupid) ∧
      ((mode.sotgv = .createDirs → ∀ t ∈ m, t.type ≠ .ghost) → db₁ = db → db' = db) := by
  induction m generalizing u u₁ c db₁ with
  | nil =>
    rw [List.append_nil] at hl
    have hue : some u = some e := hu.getLast.symm.trans hl.getLast
    obtain rfl := Option.some.inj hue
    exact ⟨db₁, by rw [List.map_nil, findDirLoop, hu₁], fun _ hdb => hdb⟩
  | cons t m ih =>
    obtain ⟨hpre, hsel⟩ := h.select_of_fullPath hu he hl
    obtain ⟨t₁, hsel₁, hid₁, htype₁⟩ := hsame _ _ _ hsel
    have hdir₁ : mode.sotgv = .createDirs → t₁.CanBeDir := by
      intro hmode
      rcases htype₁ with htype₁ | htype₁
      · unfold TupEntry.CanBeDir
        rw [htype₁]
        exact hdirs hmode t List.mem_cons_self
      · exact .inr (.inl htype₁)
    obtain ⟨db₂, henter, hsame₂, hkeep⟩ := enterPel_spec db₁ hdir₁
    rw [List.append_cons] at hl
    obtain ⟨db', hloop, hdb'⟩ := ih hpre hl (fun x hx => hnames x (List.mem_cons_of_mem t hx))
      (fun hmode x hx => hdirs hmode x (List.mem_cons_of_mem t hx)) hid₁ (hsame.trans hsame₂)
    refine ⟨db', ?_, fun hghost hdb => hdb' (fun hmode x hx => hghost hmode x (List.mem_cons_of_mem t hx)) ?_⟩
    · rw [List.map_cons, findDirLoop, if_neg (hnames t List.mem_cons_self), hu₁, hsel₁]
      dsimp only
      rw [henter]
      exact hloop
    · subst hdb
      rw [hsel] at hsel₁
      obtain rfl := Option.some.inj hsel₁
      exact hkeep fun hmode => hghost hmode t List.mem_cons_self

/-! ### No shorter path -/

theorem FullPath.adjacent (h : FullPath db t l) (ht : t ∈ db.node) (htree : db.Tree)
    (hstep : tentStep db t name = some t') : t' ∈ db.node ∧ ∃ m, FullPath db t' m ∧ Adjacent l m := by
  unfold tentStep at hstep
  split at hstep
  · refine ⟨(mem_node_of_tupEntryAdd hstep).1, ?_⟩
    obtain ⟨m, rfl⟩ : ∃ m, l = m ++ [t] := ⟨_, (List.dropLast_append_getLast? t h.getLast).symm⟩
    rcases h.concat_inv.2 with ⟨-, hnone⟩ | ⟨p, hp, hpl⟩
    · rw [hnone] at hstep
      cases hstep
    · rw [hp] at hstep
      obtain rfl := Option.some.inj hstep
      exact ⟨m, hpl, .inr ⟨t, rfl⟩⟩
  · obtain ⟨hmem, hdt, -⟩ := mem_of_tupDbSelectTent hstep
    refine ⟨hmem, l ++ [t'], .inside ?_ h, .inl ⟨t', rfl⟩⟩
    rw [hdt]
    exact htree.tupEntryAdd_of_mem ht

/-- A path from one node to another has as many names as there are steps between them. -/
theorem distance_le_of_leadsTo (htree : db.Tree) (hs : s ∈ db.node) (hl : FullPath db s l)
    (hl' : FullPath db e l') (hp : LeadsTo db s e p) : distance l l' ≤ p.length := by
  induction p generalizing s l with
  | nil =>
    obtain rfl : s = e := Option.some.inj hp
    rw [hl.unique hl', distance_self]
    exact Nat.zero_le _
  | cons name p ih =>
    unfold LeadsTo at hp
    rw [List.foldlM_cons] at hp
    obtain ⟨t, ht, hp⟩ := Option.bind_eq_some_iff.1 hp
    obtain ⟨hmem, m, hm, hadj⟩ := hl.adjacent hs htree ht
    have hrest := ih hmem hm hp
    have hstep := distance_le_of_adjacent hadj l'
    rw [List.length_cons]
    omega

end

/-! ### The text -/

theorem printSep_true (sep : Char) (acc : Text) (names : List Text) :
    printSep sep (true, acc) names = (true, acc ++ names.flatMap (sep :: ·)) := by
  induction names generalizing acc with
  | nil => simp [printSep]
  | cons name names ih =>
    have hstep : printSep sep (true, acc) (name :: names) =
        printSep sep (true, acc ++ [sep] ++ name) names := rfl
    rw [hstep, ih, List.flatMap_cons]
    simp

theorem printSep_append (sep : Char) (s : Bool × Text) (l l' : List Text) :
    printSep sep (printSep sep s l) l' = printSep sep s (l ++ l') := by
  unfold printSep
  rw [List.foldl_append]

/-- What is printed is the names joined. -/
theorem printSep_eq (names : List Text) :
    printSep '/' (false, []) names = (decide (names ≠ []), joinNames names) := by
  rcases names with _ | ⟨name, names⟩
  · rfl
  · have hstep : printSep '/' (false, []) (name :: names) = printSep '/' (true, name) names := rfl
    rw [hstep, printSep_true]
    have hjoin : ∀ (name : Text) (names : List Text),
        joinNames (name :: names) = name ++ names.flatMap ('/' :: ·) := by
      intro name names
      induction names generalizing name with
      | nil => simp [joinNames]
      | cons name' names ih =>
        rw [List.flatMap_cons, List.cons_append, ← ih name']
        rfl
    rw [hjoin]
    simp

/-- The nodes of one directory are told apart by their names, so that the names can be compared. -/
theorem relativeNames_eq {db : Db} {s e u : TupEntry} {c l l' : List TupEntry} (h : db.Rooted)
    (hs : s ∈ db.node) (he : e ∈ db.node) (hu : FullPath db u c) (hl : FullPath db s (c ++ l))
    (hl' : FullPath db e (c ++ l')) :
    relativeNames (l.map TupEntry.name) (l'.map TupEntry.name) =
      List.replicate (stripShared l l').1.length dotdot ++ (stripShared l l').2.map TupEntry.name := by
  have hups : ∀ m : List TupEntry, (m.map TupEntry.name).map (fun _ => dotdot) =
      List.replicate m.length dotdot := fun m => by rw [List.map_const', List.length_map]
  induction l generalizing u c l' with
  | nil => simp [relativeNames]
  | cons a l ih =>
    rcases l' with _ | ⟨b, l'⟩
    · rw [List.map_nil, stripShared_nil_right, List.map_nil, List.append_nil, ← hups]
      exact List.append_nil _
    · obtain ⟨hpre, hsel⟩ := h.select_of_fullPath hu hs hl
      obtain ⟨-, hsel'⟩ := h.select_of_fullPath hu he hl'
      rw [List.map_cons, List.map_cons, relativeNames]
      by_cases hab : a = b
      · subst hab
        rw [List.append_cons] at hl hl'
        rw [if_pos rfl, stripShared_cons_self, ih hpre hl hl']
      · have hname : a.name ≠ b.name := by
          intro hname
          rw [hname, hsel'] at hsel
          exact hab (Option.some.inj hsel).symm
        rw [if_neg hname, stripShared_cons_of_ne hab, ← hups]
        rfl

/-- What is printed for two nodes depends on their names only. -/
theorem getRelativeDirSep_eq {db : Db} {s e r : TupEntry} {l l' : List TupEntry} (h : db.Rooted)
    (hs : s ∈ db.node) (he : e ∈ db.node) (hl : FullPath db s (r :: l)) (hl' : FullPath db e (r :: l'))
    (hgets : getFullPathTents db s.tupid = some (r :: l))
    (hgete : getFullPathTents db e.tupid = some (r :: l')) :
    getRelativeDirSep db s.tupid e.tupid '/' =
      some (getRelativeDir (l.map TupEntry.name) (l'.map TupEntry.name)) := by
  have hr : FullPath db r ([] ++ [r]) := FullPath.initial (c := []) (m := l) hl
  have hnames := relativeNames_eq h hs he hr hl hl'
  have hups : (stripShared l l').1.map (fun _ => dotdot) =
      List.replicate (stripShared l l').1.length dotdot := List.map_const' ..
  unfold getRelativeDirSep getRelativeDir
  rw [hgets, hgete, hnames]
  dsimp only [Option.bind_eq_bind, Option.bind_some]
  rw [stripShared_cons_self, printSep_append, hups, printSep_eq]
  generalize List.replicate (stripShared l l').1.length dotdot ++ (stripShared l l').2.map TupEntry.name = p
  by_cases hnil : p = []
  · simp [hnil, joinNames]
  · simp [hnil]

theorem ProperName.ne_dot {name : Text} (h : ProperName name) : name ≠ ['.'] := by
  rintro rfl
  exact absurd h.not_ignored (by decide)

theorem ProperName.ne_dotdot {name : Text} (h : ProperName name) : name ≠ dotdot := by
  rintro rfl
  exact absurd h.not_ignored (by decide)

/-- How a path is taken apart that climbs and then descends along plain names. -/
theorem getPathElements_relative (top : Text) (k : ℕ) {names : List Text}
    (hnames : ∀ name ∈ names, ProperName name) :
    let p := List.replicate k dotdot ++ names
    namesOf (joinNames p) = p ∧ ['.'] ∉ p ∧ norm dotdot p = p ∧
      getPathElements top (joinNames p) =
        { getPathElements top (joinNames p) with
          root := false, outsideTup := false, hidden := false, pathList := p } := by
  intro p
  have hmem : ∀ name ∈ p, name = dotdot ∨ ProperName name := by
    intro name hname
    rcases List.mem_append.1 hname with hname | hname
    · exact .inl (List.eq_of_mem_replicate hname)
    · exact .inr (hnames name hname)
  have hisName : ∀ name ∈ p, IsName name := by
    intro name hname
    rcases hmem name hname with rfl | hplain
    · exact isName_dotdot
    · exact hplain.toIsName
  have hne : ∀ name ∈ p, name ≠ ['.'] := by
    intro name hname
    rcases hmem name hname with rfl | hplain
    · decide
    · exact hplain.ne_dot
  have hnorm : norm dotdot p = p :=
    norm_replicate_append k fun hup => (hnames dotdot hup).ne_dotdot rfl
  have hof := namesOf_joinNames hisName
  have hsplit : splitPathElements (joinNames p) = p := by
    rw [splitPathElements_eq, hof, List.filter_eq_self.2 fun name hname => by simp [hne name hname],
      hnorm]
  have hhidden : anyHidden p = false := by
    unfold anyHidden
    rw [List.any_eq_false]
    intro name hname
    rcases hmem name hname with rfl | hplain
    · simp
    · simp [hplain.not_ignored]
  refine ⟨hof, fun hdot => hne _ hdot rfl, hnorm, ?_⟩
  have hroot := isFullPath_joinNames hisName
  simp [getPathElements, hroot, hsplit, hhidden]

/-! ### There and back -/

/-- What is printed for two nodes is `.` for one and the same, and else the shortest path; it leads from
the one to the other. -/
theorem relativeDir_inverse {db : Db} {s e : TupEntry} (h : db.Rooted) (hs : s ∈ db.node)
    (he : e ∈ db.node) (hnames : ∀ t ∈ db.node, UnderNode db e.tupid t.tupid → t.tupid ≠ dotDt →
      ProperName t.name) :
    ∃ text, getRelativeDirSep db s.tupid e.tupid '/' = some text ∧ (text = ['.'] ↔ s = e) ∧
      (s ≠ e → Irredundant db s e text) ∧
      ∀ mode : FindMode, (mode.sotgv = .createDirs → ∀ t ∈ db.node, UnderNode db e.tupid t.tupid →
        t.tupid ≠ dotDt → t.CanBeDir) →
        ∃ db', findDirTupidDt mode db s.tupid text = some (db', e.tupid) ∧
          ((mode.sotgv = .createDirs → ∀ t ∈ db.node, t.type ≠ .ghost) → db' = db) := by
  obtain ⟨l, hl, hgetl⟩ := h.getFullPathTents_eq hs
  obtain ⟨l', hl', hgetl'⟩ := h.getFullPathTents_eq he
  obtain ⟨r, hr, hrdot, m, rfl⟩ := h.fullPath_head hs hl
  obtain ⟨r', hr', hrdot', m', rfl⟩ := h.fullPath_head he hl'
  obtain rfl := h.eq_of_tupid hr hr' (hrdot.trans hrdot'.symm)
  obtain ⟨c, hsplit, hsplit'⟩ := exists_stripShared_cons r m m'
  set ups := (stripShared (r :: m) (r :: m')).1 with hups
  set downs := (stripShared (r :: m) (r :: m')).2 with hdowns
  have hbelow : ∀ t ∈ downs, t ∈ db.node ∧ UnderNode db e.tupid t.tupid ∧ t.tupid ≠ dotDt := by
    intro t ht
    obtain ⟨a, b, hab⟩ := List.append_of_mem ht
    rw [hsplit', hab, ← List.append_assoc] at hl'
    obtain ⟨hmem, hunder⟩ := hl'.mem he (t := t) (by simp)
    exact ⟨hmem, hunder, h.ne_dot he hl' (by simp)⟩
  have hplain : ∀ t ∈ downs, ProperName t.name := by
    intro t ht
    obtain ⟨hmem, hunder, hne⟩ := hbelow t ht
    exact hnames t hmem hunder hne
  have hne : ∀ t ∈ downs, t.name ≠ dotdot := fun t ht => (hplain t ht).ne_dotdot
  obtain ⟨u, hu, hclimb, hclimbLoop⟩ := climb_fullPath (List.cons_ne_nil r c) (hsplit ▸ hl)
  have hl₂ := hl'
  rw [hsplit'] at hl₂
  have hdescend := descend_fullPath h hu he hl₂ hne
  set p := relativeNames (m.map TupEntry.name) (m'.map TupEntry.name) with hp
  have hpeq : p = List.replicate ups.length dotdot ++ downs.map TupEntry.name := by
    have hr₀ : FullPath db r ([] ++ [r]) := FullPath.initial (c := []) (m := m) hl
    rw [hp, relativeNames_eq h hs he hr₀ hl hl', hups, hdowns, stripShared_cons_self]
  have hpath : ∀ name ∈ downs.map TupEntry.name, ProperName name := by
    intro name hname
    obtain ⟨t, ht, rfl⟩ := List.mem_map.1 hname
    exact hplain t ht
  have hleads : LeadsTo db s e p := by
    unfold LeadsTo
    rw [hpeq, List.foldlM_append, hclimb]
    exact hdescend
  have hnil : p = [] ↔ s = e := by
    constructor
    · intro hp
      rw [hp] at hleads
      exact Option.some.inj hleads
    · rintro rfl
      have hself := stripShared_eq_nil_iff.2 (hl.unique hl')
      rw [hpeq, hups, hdowns, hself]
      rfl
  refine ⟨_, getRelativeDirSep_eq h hs he hl hl' hgetl hgetl', ?_⟩
  unfold getRelativeDir
  rw [← hp]
  by_cases hse : p = []
  · rw [if_pos hse]
    refine ⟨⟨fun _ => hnil.1 hse, fun _ => rfl⟩, fun hne => absurd (hnil.1 hse) hne, fun mode _ => ?_⟩
    obtain rfl := hnil.1 hse
    refine ⟨db, ?_, fun _ => rfl⟩
    have hpg : getPathElements mode.top ['.'] =
        { getPathElements mode.top ['.'] with outsideTup := false, hidden := false, pathList := [] } := rfl
    unfold findDirTupidDt findDirTupidDtPg
    rw [hpg, h.tupEntryAdd_of_mem hs]
    simp
  · rw [if_neg hse]
    obtain ⟨hof, hdot, hnorm, -⟩ := getPathElements_relative [] ups.length hpath
    rw [← hpeq] at hof hdot hnorm
    have hirr : Irredundant db s e (joinNames p) := by
      refine ⟨by rw [hof], by rwa [hof], by rw [hof, hnorm], by rwa [hof], fun q hq => ?_⟩
      have hlen : p.length = distance (r :: m) (r :: m') := by
        rw [hpeq, List.length_append, List.length_replicate, List.length_map]
        rfl
      rw [hof, hlen]
      exact distance_le_of_leadsTo h.toTree hs hl hl' hq
    refine ⟨⟨fun htext => ?_, fun heq => absurd (hnil.2 heq) hse⟩, fun _ => hirr, fun mode hmode => ?_⟩
    · rw [htext] at hof
      exact absurd (hof ▸ hdot) (by decide)
    · obtain ⟨-, -, -, hpg⟩ := getPathElements_relative mode.top ups.length hpath
      obtain ⟨db', hloop, hkeep⟩ := @findDirLoop_descend db db e u (r :: c) downs mode false h hu he hl₂ hne
        (fun hcreate t ht => hmode hcreate t (hbelow t ht).1 (hbelow t ht).2.1 (hbelow t ht).2.2)
        u rfl (SameNames.refl db)
      refine ⟨db', ?_, fun hghost => hkeep (fun hcreate t ht => hghost hcreate t (hbelow t ht).1) rfl⟩
      unfold findDirTupidDt findDirTupidDtPg
      rw [← hpeq] at hpg
      rw [hpg]
      dsimp only
      rw [Bool.and_false, if_neg Bool.false_ne_true, if_neg hse]
      simp only [Bool.false_eq_true, if_false]
      rw [h.tupEntryAdd_of_mem hs, hpeq]
      exact (hclimbLoop mode false _).trans hloop

/-- Two directories of the top, and one in the first of them. -/
def twoBranches : Db where
  node := [⟨1, 0, .dir, -1, ['.'], [], [], (-1, 0)⟩, ⟨2, 1, .dir, -1, ['a'], [], [], (-1, 0)⟩,
    ⟨3, 2, .dir, -1, ['b'], [], [], (-1, 0)⟩, ⟨4, 1, .ghost, -1, ['c'], [], [], (-1, 0)⟩]

theorem rooted_twoBranches : twoBranches.Rooted where
  nodup := by decide
  names := by decide
  depth := ⟨fun i => i.toNat, by decide⟩
  dir := by decide
  pos := by decide

/-- The outputs of a rule in another directory. -/
def outputMode : FindMode := ⟨.createDirs, false, "/w".toList, 5, fun _ _ => none⟩

theorem relativeDir_inverse_two_branches :
    getRelativeDirSep twoBranches 3 4 '/' = some "../../c".toList ∧
    Irredundant twoBranches ⟨3, 2, .dir, -1, ['b'], [], [], (-1, 0)⟩ ⟨4, 1, .ghost, -1, ['c'], [], [], (-1, 0)⟩
      "../../c".toList ∧
    ∃ db', findDirTupidDt outputMode twoBranches 3 "../../c".toList = some (db', 4) := by
  obtain ⟨text, htext, -, hirr, hfind⟩ := @relativeDir_inverse twoBranches
    ⟨3, 2, .dir, -1, ['b'], [], [], (-1, 0)⟩ ⟨4, 1, .ghost, -1, ['c'], [], [], (-1, 0)⟩
    rooted_twoBranches (by decide) (by decide)
    (fun t ht _ => (show ∀ t ∈ twoBranches.node, t.tupid ≠ dotDt → ProperName t.name by decide) t ht)
  obtain rfl : text = "../../c".toList := Option.some.inj (htext.symm.trans (by decide))
  obtain ⟨db', hdb', -⟩ := hfind outputMode
    (fun _ t ht _ => (show ∀ t ∈ twoBranches.node, t.tupid ≠ dotDt → t.CanBeDir by decide) t ht)
  exact ⟨htext, hirr (by decide), db', hdb'⟩

end Metatup
