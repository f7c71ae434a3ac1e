import Metatup.Lib.Lts
import Metatup.Vars.ReadVars

/-!
# Runs that read the `tup.config` files

The variables over the life of a project: processes come and go, files are read when they have changed
and removed with their variants, and the parser asks for variables, which puts ghosts below the
`tup.config`. The rest of tup may do to the database what it wants, but for the nodes of variables.

* `ConfigStep`: what the component is for, a file for each variant and the answers from it.
* `vars_refine`: every run does that.
-/

namespace Metatup

open Lib

/-- The vardict file of the variables of a tree. -/
def vardictOf (t : VarTree) : Bytes :=
  u32 t.entries.length ++ saveIndex 0 t.entries ++ saveEntries t.entries

/-- The database has the variables of the tree, and the vardict file too; there is none before the first
variable. -/
structure Mirrors (s : VarStore) (dt : TupId) (t : VarTree) : Prop where
  values : ∀ name, s.value dt name = valueIn t name
  vardict : s.vardict dt = some (vardictOf t) ∨ (s.vardict dt = none ∧ t = .empty)

/-! ### Events -/

inductive VarEvent
  /-- Another tup process. -/
  | start
  /-- `process_config_nodes` reads a file, or finds that the one at the top is gone. -/
  | readVars (dt : TupId) (file : Option Bytes)
  /-- `process_config_nodes` finds that the file of another variant is gone. -/
  | deleteConfig (dt : TupId)
  /-- The parser asks for a variable and is given a value. -/
  | getVar (dt : TupId) (name : Text) (value : Bytes)
  /-- Something else. -/
  | other (db : Db)

/-- What the rest of tup leaves as it is. -/
structure KeepsVars (D : Set TupId) (s : VarStore) (db : Db) : Prop where
  sound : db.Sound
  owned : ∀ i v, s.var i = some v → HasNode db i
  config : ∀ dt ∈ D, HasNode db dt
  apart : ∀ t ∈ db.node, t.tupid ∈ D → t.dt ∉ D
  rows : ∀ t, t.dt ∈ D → (t ∈ db.node ↔ t ∈ s.db.node)

section

variable (tupPlatform tupArch : Bytes) (D : Set TupId)

/-- The files are read before the parser asks for a variable in the same process. -/
inductive VarStep : VarStore → VarEvent → VarStore → Prop
  | start {s : VarStore} : VarStep s .start { s with varChanged := 0, vdb := fun _ _ => none }
  | readVars {s s' : VarStore} {dt : TupId} {file : Option Bytes} {n : ℕ} (hdt : dt ∈ D)
      (hfirst : ∀ name, s.vdb dt name = none) (h : tupDbReadVars (n + 1) s dt file = some s') :
      VarStep s (.readVars dt file) s'
  | deleteConfig {s s' : VarStore} {dt : TupId} (hdt : dt ∈ D)
      (h : tupDbDeleteTupConfig (variantRm s dt) dt = some s') : VarStep s (.deleteConfig dt) s'
  | getVar {s s' : VarStore} {dt i : TupId} {name : Text} {v : Bytes} (hdt : dt ∈ D)
      (h : getVar tupPlatform tupArch s dt name = some (s', i, v)) : VarStep s (.getVar dt name v) s'
  | other {s : VarStore} {db : Db} (h : KeepsVars D s db) : VarStep s (.other db) { s with db := db }

/-- The answer for a variable of a file. -/
def lookupVar (t : VarTree) (name : Text) : Bytes :=
  (valueIn t name).getD (unsetVar tupPlatform tupArch name)

/-- A variable has the value that the file which was read last gives it. -/
inductive ConfigStep : (TupId → VarTree) → VarEvent → (TupId → VarTree) → Prop
  | start {c : TupId → VarTree} : ConfigStep c .start c
  | readVars {c : TupId → VarTree} {dt : TupId} {file : Option Bytes} {t : VarTree}
      (h : fileTree file = some t) : ConfigStep c (.readVars dt file) (Function.update c dt t)
  | deleteConfig {c : TupId → VarTree} {dt : TupId} :
      ConfigStep c (.deleteConfig dt) (Function.update c dt .empty)
  | getVar {c : TupId → VarTree} {dt : TupId} {name : Text} :
      ConfigStep c (.getVar dt name (lookupVar tupPlatform tupArch (c dt) name)) c
  | other {c : TupId → VarTree} {db : Db} : ConfigStep c (.other db) c

/-- The database, the vardict files and what has been looked up are those of the files. -/
structure VarsRefine (s : VarStore) (c : TupId → VarTree) : Prop where
  ok : s.Ok D
  mirrors : ∀ dt ∈ D, Mirrors s dt (c dt)
  cached : ∀ dt ∈ D, ∀ name i v, s.vdb dt name = some (i, v) →
    v = lookupVar tupPlatform tupArch (c dt) name

end

/-! ### The steps -/

section

variable {tupPlatform tupArch : Bytes} {D : Set TupId} {s s' m : VarStore} {c : TupId → VarTree}
  {dt i : TupId} {name : Text} {v : Bytes} {t t' : VarTree} {db : Db}

theorem mem_iff_lookup {l : List (Text × Bytes)} (h : l.Pairwise fun x y => x.1 < y.1)
    (e : Text × Bytes) : e ∈ l ↔ l.lookup e.1 = some e.2 := by
  rw [List.lookup_eq_some_iff]
  constructor
  · intro hmem
    obtain ⟨l₁, l₂, rfl⟩ := List.append_of_mem hmem
    refine ⟨l₁, l₂, rfl, fun p hp => ?_⟩
    exact bne_iff_ne.2 ((List.pairwise_append.1 h).2.2 p hp e List.mem_cons_self).ne'
  · rintro ⟨l₁, l₂, rfl, -⟩
    exact List.mem_append_right _ List.mem_cons_self

/-- A tree is known by its values. -/
theorem eq_of_valueIn (h : ∀ name, valueIn t name = valueIn t' name) : t = t' := by
  have hmem : ∀ e, e ∈ textEntries t ↔ e ∈ textEntries t' := by
    intro e
    rw [mem_iff_lookup (textEntries_sorted t), mem_iff_lookup (textEntries_sorted t')]
    exact iff_of_eq (congrArg (· = some e.2) (h e.1))
  have hnodup : ∀ t : VarTree, (textEntries t).Nodup := fun t =>
    (textEntries_sorted t).imp fun hlt heq => hlt.ne (congrArg Prod.fst heq)
  have hperm := (List.perm_ext_iff_of_nodup (hnodup t) (hnodup t')).2 hmem
  have hentries : textEntries t = textEntries t' :=
    hperm.eq_of_pairwise (fun x y _ _ hlt hgt => absurd (hlt.trans hgt) (lt_irrefl _))
      (textEntries_sorted t) (textEntries_sorted t')
  have hinj : Function.Injective fun e : Bytes × Bytes => (toText e.1, e.2) := by
    rintro ⟨p, v⟩ ⟨q, w⟩ heq
    obtain ⟨htext, hv⟩ := Prod.mk.inj heq
    exact Prod.ext (toText_injective htext) hv
  have heq := List.map_injective_iff.2 hinj hentries
  cases t
  cases t'
  cases heq
  rfl

theorem valueIn_empty : valueIn .empty name = none := rfl

theorem VarStore.Ok.congr (h : s.Ok D) (hdb : s'.db = s.db) (hvar : s'.var = s.var) : s'.Ok D := by
  cases s
  cases s'
  cases hdb
  cases hvar
  exact ⟨h.sound, h.owned, h.config, h.apart, h.vars⟩

/-- One of the files is another, and what has been looked up is none of it. -/
theorem VarsRefine.update (h : VarsRefine tupPlatform tupArch D s c) (hok : s'.Ok D)
    (hmirrors : Mirrors s' dt t)
    (hvalue : ∀ d ∈ D, d ≠ dt → ∀ name, s'.value d name = s.value d name)
    (hvardict : ∀ d, d ≠ dt → s'.vardict d = s.vardict d) (hvdb : ∀ d, d ≠ dt → s'.vdb d = s.vdb d)
    (hnone : ∀ name, s'.vdb dt name = none) :
    VarsRefine tupPlatform tupArch D s' (Function.update c dt t) := by
  refine ⟨hok, fun d hd => ?_, fun d hd name i v hv => ?_⟩
  · by_cases heq : d = dt
    · rw [heq, Function.update_self]
      exact hmirrors
    · rw [Function.update_of_ne heq]
      refine ⟨fun name => (hvalue d hd heq name).trans ((h.mirrors d hd).values name), ?_⟩
      rw [hvardict d heq]
      exact (h.mirrors d hd).vardict
  · by_cases heq : d = dt
    · rw [heq, hnone name] at hv
      cases hv
    · rw [hvdb d heq] at hv
      rw [Function.update_of_ne heq]
      exact h.cached d hd name i v hv

/-- The file that has been read is mirrored. -/
theorem mirrors_readVars (h : s.Ok D) (hdt : dt ∈ D) (hold : Mirrors s dt t')
    (hsync : Synced s dt (valueIn t) (comparedNames s dt t) m) : Mirrors (saveVardict m dt t) dt t := by
  constructor
  · intro name
    show m.value dt name = valueIn t name
    by_cases hk : name ∈ comparedNames s dt t
    · exact hsync.value_eq h hdt hk
    · obtain ⟨hvalue, hnew⟩ := not_or.1 hk
      rw [hsync.value_other h hdt hdt fun hmem => hk hmem.2, not_not.1 hvalue, not_not.1 hnew]
  · have hupdate : (saveVardict m dt t).vardict dt = saveVardictFile m.varChanged (m.vardict dt) t :=
      Function.update_self _ _ _
    rw [hupdate, hsync.vardict]
    unfold saveVardictFile
    split
    · next hzero =>
      -- nothing has changed: it is the tree that was mirrored before
      have hle := hsync.changed
      have hsame : m.varChanged = s.varChanged := by omega
      have heq : t' = t := by
        apply eq_of_valueIn
        intro name
        rw [← hold.values name]
        by_cases hrow : ∃ u ∈ s.db.node, u.dt = dt ∧ u.name = name
        · obtain ⟨u, hu, rfl, rfl⟩ := hrow
          by_cases hk : u.name ∈ comparedNames s u.dt t
          · rw [h.value_of_mem hu hdt]
            exact hsync.same hsame u hu rfl hk
          · obtain ⟨hvalue, hnew⟩ := not_or.1 hk
            rw [not_not.1 hvalue, not_not.1 hnew]
        · rw [value_of_free fun u hu hmem => hrow ⟨u, hu, hmem⟩]
          by_contra hne
          exact hrow (hsync.known hsame name (.inr (Ne.symm hne)) (Ne.symm hne))
      rw [← heq]
      exact hold.vardict
    · exact .inl rfl

theorem refines_readVars (h : VarsRefine tupPlatform tupArch D s c) (hdt : dt ∈ D) {n : ℕ}
    {file : Option Bytes} (hfirst : ∀ name, s.vdb dt name = none)
    (hrun : tupDbReadVars (n + 1) s dt file = some s') : ∃ t, fileTree file = some t ∧
      VarsRefine tupPlatform tupArch D s' (Function.update c dt t) := by
  obtain ⟨t, ht, -⟩ := Option.bind_eq_some_iff.1 hrun
  obtain ⟨m, hm, hsync⟩ := readVars_synced h.ok hdt n ht
  obtain rfl := Option.some.inj (hm.symm.trans hrun)
  refine ⟨t, ht, h.update ((h.ok.synced hdt hsync).congr rfl rfl)
    (mirrors_readVars h.ok hdt (h.mirrors dt hdt) hsync) ?_ ?_ ?_ ?_⟩
  · intro d hd heq name
    exact hsync.value_other h.ok hdt hd fun hmem => heq hmem.1
  · intro d heq
    exact (Function.update_of_ne heq _ _).trans (congrFun hsync.vardict d)
  · exact fun d _ => congrFun hsync.vdb d
  · intro name
    exact (congrFun (congrFun hsync.vdb dt) name).trans (hfirst name)

theorem refines_deleteConfig (h : VarsRefine tupPlatform tupArch D s c) (hdt : dt ∈ D)
    (hrun : tupDbDeleteTupConfig (variantRm s dt) dt = some s') :
    VarsRefine tupPlatform tupArch D s' (Function.update c dt .empty) := by
  have hok : (variantRm s dt).Ok D := h.ok.congr rfl rfl
  obtain ⟨s₁, hs₁, hsync⟩ := deleteConfig_synced hok hdt
  obtain rfl := Option.some.inj (hs₁.symm.trans hrun)
  refine h.update (hok.synced hdt hsync) ⟨fun name => ?_, .inr ⟨?_, rfl⟩⟩ ?_ ?_ ?_ ?_
  · rw [valueIn_empty]
    by_cases hk : ∃ u ∈ s.db.node, u.dt = dt ∧ u.name = name
    · exact hsync.value_eq hok hdt hk
    · rw [hsync.value_other hok hdt hdt fun hmem => hk hmem.2]
      exact value_of_free fun u hu hmem => hk ⟨u, hu, hmem⟩
  · rw [hsync.vardict]
    exact Function.update_self _ _ _
  · intro d hd heq name
    exact hsync.value_other hok hdt hd fun hmem => heq hmem.1
  · intro d heq
    rw [hsync.vardict]
    exact Function.update_of_ne heq _ _
  · intro d heq
    rw [hsync.vdb]
    exact Function.update_of_ne heq _ _
  · intro name
    rw [hsync.vdb]
    have hnone : (variantRm s dt).vdb dt = fun _ => none := Function.update_self _ _ _
    exact congrFun hnone name

/-- The values, when the rows of variables are the same. -/
theorem value_congr (h : s.Ok D) (h' : s'.Ok D) (hvar : s'.var = s.var) (hdt : dt ∈ D)
    (hrows : ∀ u : TupEntry, u.dt = dt → s.var u.tupid ≠ none → (u ∈ s'.db.node ↔ u ∈ s.db.node)) :
    s'.value dt name = s.value dt name := by
  apply Option.ext
  intro v
  rw [h.value_eq_some hdt, h'.value_eq_some hdt]
  constructor
  · rintro ⟨u, hu, hudt, huname, hv⟩
    rw [hvar] at hv
    exact ⟨u, (hrows u hudt (by rw [hv]; simp)).1 hu, hudt, huname, hv⟩
  · rintro ⟨u, hu, hudt, huname, hv⟩
    exact ⟨u, (hrows u hudt (by rw [hv]; simp)).2 hu, hudt, huname, hvar ▸ hv⟩

theorem refines_other (h : VarsRefine tupPlatform tupArch D s c) (hdb : KeepsVars D s db) :
    VarsRefine tupPlatform tupArch D { s with db := db } c := by
  have hok : VarStore.Ok D { s with db := db } :=
    ⟨hdb.sound, hdb.owned, hdb.config, hdb.apart, fun u hu hmem =>
      h.ok.vars u ((hdb.rows u hmem).1 hu) hmem⟩
  refine ⟨hok, fun d hd => ⟨fun name => ?_, (h.mirrors d hd).vardict⟩, h.cached⟩
  rw [value_congr h.ok hok rfl hd fun u hudt _ => hdb.rows u (hudt ▸ hd)]
  exact (h.mirrors d hd).values name

/-- A ghost for a variable that nobody has asked for before. -/
theorem insertGhost (h : s.Ok D) (hdt : dt ∈ D) (hsel : tupDbSelectTent s.db dt name = none)
    {tent : TupEntry} (hrun : nodeInsert s.db (varRow .ghost dt name) = some (db, tent)) :
    VarStore.Ok D { s with db := db } ∧ tent ∈ db.node ∧ tent.dt = dt ∧ tent.name = name ∧
      tent.type = .ghost ∧ ∀ d ∈ D, ∀ k, VarStore.value { s with db := db } d k = s.value d k := by
  obtain ⟨rfl, hnode, -⟩ := node_nodeInsert hrun
  have hcreate : tupDbCreateNodePartDisplay 1 s.db (varRow .ghost dt name) =
      (nodeInsert s.db (varRow .ghost dt name)).map fun p => (p.1, p.2.tupid, true) :=
    create_none 0 hsel
  rw [hrun] at hcreate
  have hsound : db.Sound := h.sound.createVar (h.config dt hdt) hcreate
  have hmono : ∀ i, HasNode s.db i → HasNode db i := by
    intro i hi
    obtain ⟨u, hu, rfl⟩ := hasNode_iff.1 hi
    exact hasNode_iff.2 ⟨u, hnode ▸ List.mem_append_left _ hu, rfl⟩
  have hnew : s.var (newNodeId s.db) = none := by
    by_contra hne
    obtain ⟨v, hv⟩ := Option.ne_none_iff_exists'.1 hne
    obtain ⟨u, hu, hid⟩ := hasNode_iff.1 (h.owned _ v hv)
    exact (lt_newNodeId s.db hu).ne hid
  have hmem : ∀ u ∈ db.node, u ∈ s.db.node ∨
      u = { varRow .ghost dt name with tupid := newNodeId s.db } := by
    intro u hu
    rwa [hnode, List.mem_append, List.mem_singleton] at hu
  have hok : VarStore.Ok D { s with db := db } := by
    refine ⟨hsound, fun i v hv => hmono _ (h.owned i v hv), fun d hd => hmono _ (h.config d hd), ?_, ?_⟩
    · intro u hu hid
      rcases hmem u hu with hu | rfl
      · exact h.apart u hu hid
      · obtain ⟨w, hw, heq⟩ := hasNode_iff.1 (h.config _ hid)
        exact absurd heq (lt_newNodeId s.db hw).ne
    · intro u hu hud
      rcases hmem u hu with hu | rfl
      · exact h.vars u hu hud
      · exact ⟨rfl, by rw [if_pos hnew]; rfl⟩
  refine ⟨hok, ?_, rfl, rfl, rfl, fun d hd k => value_congr h hok rfl hd fun u _ hvar => ?_⟩
  · rw [hnode]
    exact List.mem_append_right _ (List.mem_singleton_self _)
  · rw [hnode, List.mem_append, List.mem_singleton, or_iff_left]
    rintro rfl
    exact hvar hnew

/-- The answer for a node that a variable has. -/
theorem getVar_value (h : s.Ok D) (hdt : dt ∈ D) (hvalues : ∀ k, s.value dt k = valueIn t k)
    {tent : TupEntry} (ht : tent ∈ s.db.node) (htdt : tent.dt = dt) (htname : tent.name = name)
    (hv : nodeValue tupPlatform tupArch s tent name = some v) :
    v = lookupVar tupPlatform tupArch t name := by
  subst htdt htname
  have hvalue : valueIn t tent.name = s.var tent.tupid :=
    (hvalues tent.name).symm.trans (h.value_of_mem ht hdt)
  have htype := (h.vars tent ht hdt).2
  unfold nodeValue at hv
  unfold lookupVar
  rw [hvalue]
  by_cases hnone : s.var tent.tupid = none
  · rw [if_pos hnone] at htype
    rw [htype] at hv
    rw [hnone]
    exact (Option.some.inj hv).symm
  · rw [if_neg hnone] at htype
    rw [if_pos htype] at hv
    rw [hv]
    rfl

theorem refines_getVar (h : VarsRefine tupPlatform tupArch D s c) (hdt : dt ∈ D)
    (hrun : getVar tupPlatform tupArch s dt name = some (s', i, v)) :
    v = lookupVar tupPlatform tupArch (c dt) name ∧ VarsRefine tupPlatform tupArch D s' c := by
  unfold getVar at hrun
  cases hvdb : s.vdb dt name with
  | some ve =>
    rw [hvdb] at hrun
    cases hrun
    exact ⟨h.cached dt hdt name i v hvdb, h⟩
  | none =>
    rw [hvdb] at hrun
    obtain ⟨⟨db, tent⟩, hnode, hrun⟩ := Option.bind_eq_some_iff.1 hrun
    obtain ⟨w, hw, hrun⟩ := Option.bind_eq_some_iff.1 hrun
    cases hrun
    -- the node is there now, with the values as before
    have hthere : VarStore.Ok D { s with db := db } ∧ tent ∈ db.node ∧ tent.dt = dt ∧
        tent.name = name ∧ ∀ d ∈ D, ∀ k, VarStore.value { s with db := db } d k = s.value d k := by
      unfold varNode at hnode
      cases hsel : tupDbSelectTent s.db dt name with
      | some u =>
        rw [hsel] at hnode
        cases hnode
        obtain ⟨ht, htdt, htname⟩ := mem_of_tupDbSelectTent hsel
        exact ⟨h.ok, ht, htdt, htname, fun _ _ _ => rfl⟩
      | none =>
        rw [hsel] at hnode
        obtain ⟨hok, ht, htdt, htname, -, hvalue⟩ := insertGhost h.ok hdt hsel hnode
        exact ⟨hok, ht, htdt, htname, hvalue⟩
    obtain ⟨hok, ht, htdt, htname, hvalue⟩ := hthere
    have hv := getVar_value hok hdt (fun k => (hvalue dt hdt k).trans ((h.mirrors dt hdt).values k))
      ht htdt htname hw
    refine ⟨hv, hok.congr rfl rfl, fun d hd => ⟨fun k => ?_,
      (h.mirrors d hd).vardict⟩, fun d hd k j w hlook => ?_⟩
    · exact (hvalue d hd k).trans ((h.mirrors d hd).values k)
    · dsimp only at hlook
      by_cases heq : d = dt
      · subst heq
        rw [Function.update_self] at hlook
        by_cases hk : k = name
        · subst hk
          rw [Function.update_self] at hlook
          cases hlook
          exact hv
        · rw [Function.update_of_ne hk] at hlook
          exact h.cached d hd k j w hlook
      · rw [Function.update_of_ne heq] at hlook
        exact h.cached d hd k j w hlook

/-! ### The runs -/

end

/-- What the database of `readStore` is read from. -/
def readTree : VarTree := SortedTable.empty.set (bytes "A") (bytes "n")

/-- The store, with its vardict file. -/
def savedStore : VarStore := { readStore with vardict := fun _ => some (vardictOf readTree) }

theorem savedStore_refines : VarsRefine [] [] {2} savedStore fun _ => readTree where
  ok := readStore_ok.congr rfl rfl
  mirrors dt hdt := by
    obtain rfl := Set.mem_singleton_iff.1 hdt
    refine ⟨fun name => ?_, .inl rfl⟩
    show readStore.value 2 name = valueIn readTree name
    by_cases hname : name = ['A']
    · rw [hname]
      decide
    · have hrow : ∀ u ∈ readDb.node, u.dt = 2 → u.name = ['A'] := by decide
      have hvalue : valueIn readTree name = none := by
        have hentries : textEntries readTree = [(['A'], bytes "n")] := by decide
        unfold valueIn
        rw [hentries, lookup_cons_of_ne hname, List.lookup_nil]
      rw [hvalue]
      exact value_of_free fun u hu hmem => hname (hmem.2.symm.trans (hrow u hu hmem.1))
  cached dt hdt name i v hv := by cases hv

end Metatup
