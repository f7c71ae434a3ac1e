import Metatup.Db.CreateNode
import Metatup.Db.Removal

/-!
# No dependent is lost

A call that removes a node, or gives it another type, drops normal links. A command that one of them
led to belongs into the modify list, and a directory into the create list.

* `NodeCall`: the calls.
* `CmdsKept`, `DirsKept`: what they owe to the commands and the directories.
* `no_dependent_lost`: the commands get their due exactly when every one that a node removed as
  neither file nor generated file leads to is put into the modify list for another reason, and the
  directories do when those that a node removed as neither file nor directory leads to are in the
  create list already.
-/

namespace Metatup

/-- Every command that a dropped link leads to is to be executed. -/
def CmdsKept (db db' : Db) : Prop :=
  ∀ x c, NormalAdj db x c → ¬ NormalAdj db' x c → nodeType db c = some .cmd →
    nodeType db' c = some .cmd → c ∈ db'.flags.modify

/-- Every directory that a dropped link leads to is to be parsed. -/
def DirsKept (db db' : Db) : Prop :=
  ∀ x d, NormalAdj db x d → ¬ NormalAdj db' x d → nodeType db d = some .dir →
    nodeType db' d = some .dir → d ∈ db'.flags.create

/-! ### After a removal -/

/-- What the statements that follow a removal do; `E` are the commands they flag, and `p` are the
nodes they may make a directory of. -/
structure Post (p : TupId → Prop) (db : Db) (E : Set TupId) (db' : Db) : Prop where
  cmd : ∀ c, nodeType db c = some .cmd → nodeType db' c = some .cmd
  dir : ∀ d, nodeType db d = some .dir → nodeType db' d = some .dir
  newCmd : ∀ c, nodeType db' c = some .cmd → nodeType db c = some .cmd ∨ c ∈ db'.flags.modify
  newDir : ∀ d, nodeType db' d = some .dir → nodeType db d = some .dir ∨ p d
  modify : ∀ c, nodeType db c = some .cmd →
    (c ∈ db'.flags.modify ↔ c ∈ db.flags.modify ∨ c ∈ E)
  create : db.flags.create ⊆ db'.flags.create
  links : ∀ a b, NormalAdj db' a b → NormalAdj db a b
  lostCmd : ∀ a c, NormalAdj db a c → ¬ NormalAdj db' a c → nodeType db c = some .cmd → c ∈ E
  lostDir : ∀ a d, NormalAdj db a d → ¬ NormalAdj db' a d → nodeType db d = some .dir →
    d ∈ db'.flags.create

namespace Post

variable {p : TupId → Prop} {db db₁ db₂ : Db} {E F : Set TupId}

theorem trans (h : Post p db E db₁) (h₁ : Post p db₁ F db₂) : Post p db (E ∪ F) db₂ where
  cmd c hc := h₁.cmd c (h.cmd c hc)
  dir d hd := h₁.dir d (h.dir d hd)
  newCmd c hc := by
    rcases h₁.newCmd c hc with hc₁ | hc₁
    · rcases h.newCmd c hc₁ with hc₀ | hc₀
      · exact .inl hc₀
      · exact .inr ((h₁.modify c hc₁).2 (.inl hc₀))
    · exact .inr hc₁
  newDir d hd := by
    rcases h₁.newDir d hd with hd₁ | hp
    · exact h.newDir d hd₁
    · exact .inr hp
  modify c hc := by
    rw [h₁.modify c (h.cmd c hc), h.modify c hc, or_assoc]
    rfl
  create := h.create.trans h₁.create
  links a b hab := h.links a b (h₁.links a b hab)
  lostCmd a c hac hlost hc := by
    by_cases hmid : NormalAdj db₁ a c
    · exact .inr (h₁.lostCmd a c hmid hlost (h.cmd c hc))
    · exact .inl (h.lostCmd a c hac hmid hc)
  lostDir a d had hlost hd := by
    by_cases hmid : NormalAdj db₁ a d
    · exact h₁.lostDir a d hmid hlost (h.dir d hd)
    · exact h₁.create (h.lostDir a d had hmid hd)

/-- Two steps of which only the first flags commands. -/
theorem step (h : Post p db E db₁) (h₁ : Post p db₁ ∅ db₂) : Post p db E db₂ := by
  have := h.trans h₁
  rwa [Set.union_empty] at this

/-- A statement that leaves the links as they are and flags no commands. -/
theorem of_links (hcmd : ∀ c, nodeType db c = some .cmd → nodeType db₁ c = some .cmd)
    (hdir : ∀ d, nodeType db d = some .dir → nodeType db₁ d = some .dir)
    (hnew : ∀ c, nodeType db₁ c = some .cmd →
      nodeType db c = some .cmd ∨ c ∈ db₁.flags.modify)
    (hnewdir : ∀ d, nodeType db₁ d = some .dir → nodeType db d = some .dir ∨ p d)
    (hmod : ∀ c, nodeType db c = some .cmd → (c ∈ db₁.flags.modify ↔ c ∈ db.flags.modify))
    (hcreate : db.flags.create ⊆ db₁.flags.create) (hlinks : db₁.normalLink = db.normalLink) :
    Post p db ∅ db₁ := by
  have hadj : ∀ a b, NormalAdj db₁ a b ↔ NormalAdj db a b := by
    intro a b
    unfold NormalAdj
    rw [hlinks]
  refine ⟨hcmd, hdir, hnew, hnewdir, ?_, hcreate, fun a b => (hadj a b).1, ?_, ?_⟩
  · intro c hc
    rw [hmod c hc]
    simp
  · intro a c hac hlost _
    exact absurd ((hadj a c).2 hac) hlost
  · intro a d had hlost _
    exact absurd ((hadj a d).2 had) hlost

theorem of_grows (h : Grows db db₁) : Post p db ∅ db₁ := by
  have htype : ∀ i, nodeType db₁ i = nodeType db i := by
    intro i
    unfold nodeType
    rw [h.tupEntryAdd]
  apply of_links
  · exact fun c hc => (htype c).trans hc
  · exact fun d hd => (htype d).trans hd
  · exact fun c hc => .inl ((htype c).symm.trans hc)
  · exact fun d hd => .inl ((htype d).symm.trans hd)
  · intro c _
    rw [h.modify]
  · exact h.create
  · exact h.normalLink

/-- A node that is no command goes in the modify list. -/
theorem addModify {i : TupId} (hi : nodeType db i ≠ some .cmd) : Post p db ∅ (db.addModify i) := by
  apply of_links
  · exact fun _ hc => hc
  · exact fun _ hd => hd
  · exact fun _ hc => .inl hc
  · exact fun _ hd => .inl hd
  · intro c hc
    have hne : c ≠ i := by
      rintro rfl
      exact hi hc
    simp [Db.addModify, Db.setFlags, tupDbAddModifyList, hne]
  · exact subset_rfl
  · rfl

theorem nodeType_updateNode (db : Db) (i j : TupId) {f : TupEntry → TupEntry}
    (hf : ∀ t, (f t).tupid = t.tupid) : nodeType (db.updateNode i f) j =
      if j = i then (tupEntryAdd db j).map fun t => (f t).type else nodeType db j := by
  unfold nodeType
  rw [tupEntryAdd_updateNode db i j hf]
  split
  · rw [Option.map_map]
    rfl
  · rfl

/-- The row of a node that is neither command nor directory changes. A node that becomes a command
has been put into the modify list, and one that becomes a directory may do so. -/
theorem updateNode {i : TupId} {f : TupEntry → TupEntry} (hf : ∀ t, (f t).tupid = t.tupid)
    (hcmd : nodeType db i ≠ some .cmd) (hdir : nodeType db i ≠ some .dir)
    (hmod : ∀ t, (f t).type = .cmd → i ∈ db.flags.modify) (hp : ∀ t, (f t).type = .dir → p i) :
    Post p db ∅ (db.updateNode i f) := by
  have hne : ∀ j, j ≠ i → nodeType (db.updateNode i f) j = nodeType db j := by
    intro j hj
    rw [nodeType_updateNode db i j hf, if_neg hj]
  apply of_links
  · intro c hc
    rw [hne c fun heq => hcmd (heq ▸ hc)]
    exact hc
  · intro d hd
    rw [hne d fun heq => hdir (heq ▸ hd)]
    exact hd
  · intro c hc
    by_cases hci : c = i
    · subst hci
      rw [nodeType_updateNode db c c hf, if_pos rfl] at hc
      obtain ⟨t, -, ht⟩ := Option.map_eq_some_iff.1 hc
      exact .inr (hmod t ht)
    · rw [hne c hci] at hc
      exact .inl hc
  · intro d hd
    by_cases hdi : d = i
    · subst hdi
      rw [nodeType_updateNode db d d hf, if_pos rfl] at hd
      obtain ⟨t, -, ht⟩ := Option.map_eq_some_iff.1 hd
      exact .inr (hp t ht)
    · rw [hne d hdi] at hd
      exact .inl hd
  · exact fun _ _ => .rfl
  · exact subset_rfl
  · rfl

/-- A row changes, but not its type. -/
theorem updateNode_of_type {i : TupId} {f : TupEntry → TupEntry}
    (hf : ∀ t, (f t).tupid = t.tupid) (htype : ∀ t, (f t).type = t.type) :
    Post p db ∅ (db.updateNode i f) := by
  have hsame : ∀ j, nodeType (db.updateNode i f) j = nodeType db j := by
    intro j
    rw [nodeType_updateNode db i j hf]
    split
    · unfold nodeType
      congr 1
      funext t
      exact htype t
    · rfl
  apply of_links
  · exact fun c hc => (hsame c).trans hc
  · exact fun d hd => (hsame d).trans hd
  · exact fun c hc => .inl ((hsame c).symm.trans hc)
  · exact fun d hd => .inl ((hsame d).symm.trans hd)
  · exact fun _ _ => .rfl
  · exact subset_rfl
  · rfl

end Post

/-! ### The statements that follow a removal -/

section

variable {p : TupId → Prop} {db db' : Db} {fuel : ℕ}

theorem tupid_lt_newNodeId {t : TupEntry} (ht : t ∈ db.node) : t.tupid < newNodeId db := by
  have key : ∀ l : List TupId, ∀ i ∈ l, i ≤ l.foldr max 0 := by
    intro l
    induction l with
    | nil => simp
    | cons a l ih =>
      intro i hi
      rw [List.foldr_cons]
      rcases List.mem_cons.1 hi with rfl | hi
      · exact le_max_left _ _
      · exact (ih i hi).trans (le_max_right _ _)
  exact Int.lt_add_one_of_le (key _ _ (List.mem_map_of_mem ht))

/-- A new node has a row of its own. -/
theorem nodeType_insert {tent : TupEntry} (hid : tent.tupid = newNodeId db) (j : TupId) :
    nodeType { db with node := db.node ++ [tent] } j =
      if j = tent.tupid then some tent.type else nodeType db j := by
  have hadd : tupEntryAdd { db with node := db.node ++ [tent] } j =
      (tupEntryAdd db j).or ([tent].find? (·.tupid = j)) := List.find?_append
  unfold nodeType
  rw [hadd]
  by_cases hj : j = tent.tupid
  · have hnone : tupEntryAdd db j = none := by
      refine List.find?_eq_none.2 fun t ht => ?_
      have hlt := tupid_lt_newNodeId ht
      rw [hj, hid]
      simpa using hlt.ne
    rw [if_pos hj, hnone]
    simp [hj]
  · have hne : tent.tupid ≠ j := Ne.symm hj
    rw [if_neg hj]
    simp [hne]

/-- The types of the nodes after an insertion. -/
theorem nodeType_nodeInsertTent {row tent : TupEntry}
    (h : tupDbNodeInsertTentDisplay db row = some (db', tent)) (j : TupId) :
    nodeType db' j = if j = tent.tupid then some row.type else nodeType db j := by
  unfold tupDbNodeInsertTentDisplay at h
  split at h
  · cases h
  obtain ⟨hdb, htent⟩ := Prod.mk.inj (Option.some.inj h)
  have hid : tent.tupid = newNodeId db := by rw [← htent]
  have hrow : tent.type = row.type := by rw [← htent]
  rw [htent] at hdb
  rw [← hrow, ← nodeType_insert hid, ← hdb]
  split <;> rfl

theorem post_nodeInsertTent {row tent : TupEntry} (hp : row.type = .dir → ∀ d, p d)
    (h : tupDbNodeInsertTentDisplay db row = some (db', tent)) : Post p db ∅ db' := by
  have htype := nodeType_nodeInsertTent h
  unfold tupDbNodeInsertTentDisplay at h
  split at h
  · cases h
  obtain ⟨hdb, htent⟩ := Prod.mk.inj (Option.some.inj h)
  have hid : tent.tupid = newNodeId db := by rw [← htent]
  have hrow : tent.type = row.type := by rw [← htent]
  rw [htent] at hdb
  have hold : ∀ j type, nodeType db j = some type → j ≠ tent.tupid := by
    rintro j type hj rfl
    obtain ⟨t, ht, -⟩ := Option.map_eq_some_iff.1 hj
    obtain ⟨hmem, htid⟩ := mem_node_of_tupEntryAdd ht
    have hlt := tupid_lt_newNodeId hmem
    rw [htid, hid] at hlt
    exact lt_irrefl _ hlt
  rw [← hrow] at htype
  have hmod : ∀ c, c ∈ db'.flags.modify ↔
      c ∈ db.flags.modify ∨ (tent.type = .cmd ∧ c = tent.tupid) := by
    intro c
    rw [← hdb]
    split
    · next hcmd => simp [Db.addModify, Db.setFlags, tupDbAddModifyList, hcmd, or_comm]
    · next hcmd => simp [hcmd]
  apply Post.of_links
  · intro c hc
    rw [htype, if_neg (hold c _ hc)]
    exact hc
  · intro d hd
    rw [htype, if_neg (hold d _ hd)]
    exact hd
  · intro c hc
    rw [htype] at hc
    split at hc
    · next hci => exact .inr ((hmod c).2 (.inr ⟨Option.some.inj hc, hci⟩))
    · exact .inl hc
  · intro d hd
    rw [htype] at hd
    split at hd
    · exact .inr (hp (hrow ▸ Option.some.inj hd) d)
    · exact .inl hd
  · intro c hc
    rw [hmod]
    exact or_iff_left fun h => hold c _ hc h.2
  · rw [← hdb]
    split <;> exact subset_rfl
  · rw [← hdb]
    split <;> rfl

theorem post_nodeInsert {row tent : TupEntry} (hp : row.type = .dir → ∀ d, p d)
    (h : nodeInsert db row = some (db', tent)) : Post p db ∅ db' := by
  obtain ⟨⟨db₁, tent₁⟩, hins, h⟩ := Option.bind_eq_some_iff.1 h
  obtain ⟨hdb, -⟩ := Prod.mk.inj (Option.some.inj h)
  have hpost := post_nodeInsertTent hp hins
  rw [← hdb]
  split
  · exact hpost.step (.of_grows (.addCreate _ _))
  · exact hpost

theorem nodeType_of_tupEntryAdd {i : TupId} {t : TupEntry} (h : tupEntryAdd db i = some t) :
    nodeType db i = some t.type := congrArg (Option.map TupEntry.type) h

/-- A node that is neither command nor directory gets a type. -/
theorem post_setType {i : TupId} {old type : NodeType} (hold : nodeType db i = some old)
    (hcmd : old ≠ .cmd) (hdir : old ≠ .dir) (hmod : type ≠ .cmd ∨ i ∈ db.flags.modify)
    (hp : type = .dir → p i) : Post p db ∅ (tupDbSetType db i type) := by
  have hcmd' : nodeType db i ≠ some .cmd := by
    rw [hold]
    exact fun h => hcmd (Option.some.inj h)
  have hdir' : nodeType db i ≠ some .dir := by
    rw [hold]
    exact fun h => hdir (Option.some.inj h)
  exact .updateNode (fun _ => rfl) hcmd' hdir'
    (fun _ htype => hmod.resolve_left (not_not.2 htype)) fun _ => hp

theorem post_ghostRoot (db : Db) (r : TentTree) : Post p db ∅ { db with ghostRoot := r } :=
  .of_grows ⟨rfl, rfl, rfl, subset_rfl⟩

theorem post_makeDirsNormal {dt : TupId} (hp : ∀ d, nodeType db d = some .generatedDir → p d)
    (h : makeDirsNormal fuel db dt = some db') : Post p db ∅ db' := by
  induction fuel generalizing db dt with
  | zero => cases h
  | succ fuel ih =>
    unfold makeDirsNormal at h
    split at h
    · cases h
      exact .of_grows (.refl _)
    · next dtent hdt =>
      have htype := nodeType_of_tupEntryAdd hdt
      split at h
      · next hgen =>
        rw [hgen] at htype
        have hset : Post p db ∅ (tupDbSetType db dt .dir) :=
          post_setType htype (by decide) (by decide) (.inl (by decide)) fun _ => hp dt htype
        refine (hset.step (post_ghostRoot _ _)).step (ih (fun d hd => hp d ?_) h)
        have hd : nodeType (tupDbSetType db dt .dir) d = some .generatedDir := hd
        by_cases hdt' : d = dt
        · exact hdt' ▸ htype
        · unfold nodeType at hd
          rwa [tupEntryAdd_setType, if_neg hdt'] at hd
      · split at h
        · obtain rfl := Option.some.inj h
          split
          · exact .of_grows (.addCreate _ _)
          · exact .of_grows (.refl _)
        · cases h
          exact .of_grows (.refl _)

/-- Only generated directories get another type. -/
theorem nodeType_makeDirsNormal {dt j : TupId} {type : NodeType}
    (h : makeDirsNormal fuel db dt = some db') (hj : nodeType db j = some type)
    (hne : type ≠ .generatedDir) : nodeType db' j = some type := by
  induction fuel generalizing db dt with
  | zero => cases h
  | succ fuel ih =>
    unfold makeDirsNormal at h
    split at h
    · cases h
      exact hj
    · next dtent hdt =>
      split at h
      · next hgen =>
        apply ih h
        have hjdt : j ≠ dt := by
          rintro rfl
          have htype := nodeType_of_tupEntryAdd hdt
          rw [hj, hgen] at htype
          exact hne (Option.some.inj htype)
        have hset : nodeType (tupDbSetType db dt .dir) j = some type := by
          unfold nodeType
          rw [tupEntryAdd_setType, if_neg hjdt]
          exact hj
        exact hset
      · split at h
        · obtain rfl := Option.some.inj h
          split <;> exact hj
        · cases h
          exact hj

theorem post_createNameFile {dt : TupId} {file : Text} {mtime : Int × Int} {tent : TupEntry}
    (hp : ∀ d, nodeType db d = some .generatedDir → p d) (h : createNameFile fuel db dt file mtime = some (db', tent)) :
    Post p db ∅ db' ∧ nodeType db' tent.tupid = some .file := by
  obtain ⟨⟨db₁, tent₁⟩, hins, h⟩ := Option.bind_eq_some_iff.1 h
  obtain ⟨db₂, hdirs, h⟩ := Option.bind_eq_some_iff.1 h
  cases h
  have hpost : Post p db ∅ (db₁.addCreate dt) :=
    (post_nodeInsertTent nofun hins).step (.of_grows (.addCreate _ _))
  have hfile : nodeType (db₁.addCreate dt) tent.tupid = some .file := by
    have htype := nodeType_nodeInsertTent hins tent.tupid
    rw [if_pos rfl] at htype
    exact htype
  refine ⟨hpost.step (post_makeDirsNormal (fun d hd => hp d ?_) hdirs),
    nodeType_makeDirsNormal hdirs hfile (by decide)⟩
  have hd : nodeType db₁ d = some .generatedDir := hd
  rw [nodeType_nodeInsertTent hins] at hd
  split at hd
  · cases hd
  · exact hd

theorem post_ghostToFile {tent : TupEntry} (hghost : nodeType db tent.tupid = some .ghost)
    (h : ghostToFile db tent = some db') :
    Post p db ∅ db' ∧ nodeType db' tent.tupid = some .file := by
  obtain ⟨parent, -, h⟩ := Option.bind_eq_some_iff.1 h
  generalize hm : tupDbSetType { db with ghostRoot := tentTreeRemove db.ghostRoot tent.tupid }
    tent.tupid .file = m at h
  have hghost₁ : nodeType { db with ghostRoot := tentTreeRemove db.ghostRoot tent.tupid }
      tent.tupid = some .ghost := hghost
  have hset : Post p db ∅ m := by
    rw [← hm]
    exact (post_ghostRoot db _).step
      (post_setType hghost₁ (by decide) (by decide) (.inl (by decide)) nofun)
  have hfile : nodeType m tent.tupid = some .file := by
    obtain ⟨t, ht, -⟩ := Option.map_eq_some_iff.1 hghost
    have ht' : tupEntryAdd { db with ghostRoot := tentTreeRemove db.ghostRoot tent.tupid }
        tent.tupid = some t := ht
    rw [← hm]
    unfold nodeType
    rw [tupEntryAdd_setType, if_pos rfl, ht']
    rfl
  have hgrow : Grows m (if parent.type = .dir then m.addCreate tent.dt else m) := by
    split
    · exact .addCreate _ _
    · exact .refl _
  have hfile' : nodeType (if parent.type = .dir then m.addCreate tent.dt else m) tent.tupid =
      some .file := by
    unfold nodeType
    rw [hgrow.tupEntryAdd]
    exact hfile
  cases h
  refine ⟨(hset.step (.of_grows hgrow)).step (.addModify ?_), hfile'⟩
  rw [hfile']
  decide

/-- Taking a ghost out of the links flags whatever depends on it. -/
theorem post_unlinkGhost {i : TupId} (hghost : nodeType db i = some .ghost)
    (h : tupDbDeleteLinks (tupDbModifyCmdsByInput (tupDbSetDependentDirFlags db i) i) i = some db') :
    Post p db {c | NormalAdj db i c} db' := by
  obtain ⟨m, hgrow, rfl⟩ := tupDbDeleteLinks_eq h
  have htype : ∀ j, nodeType (deleteTableLinks m i) j = nodeType db j := by
    intro j
    unfold nodeType
    exact congrArg _ (hgrow.tupEntryAdd j)
  have hadj : ∀ a b, NormalAdj (deleteTableLinks m i) a b ↔ NormalAdj db a b ∧ a ≠ i ∧ b ≠ i := by
    intro a b
    have hm : NormalAdj m a b ↔ NormalAdj db a b := hgrow.normalAdj a b
    rw [normalAdj_deleteTableLinks, hm]
  have hlost : ∀ a b type, NormalAdj db a b → ¬ NormalAdj (deleteTableLinks m i) a b →
      nodeType db b = some type → type ≠ .ghost → a = i := by
    intro a b type hab hlost hb hne
    by_contra ha
    refine hlost ((hadj a b).2 ⟨hab, ha, ?_⟩)
    rintro rfl
    exact hne (Option.some.inj (hb.symm.trans hghost))
  refine ⟨fun c hc => (htype c).trans hc, fun d hd => (htype d).trans hd,
    fun c hc => .inl ((htype c).symm.trans hc), fun d hd => .inl ((htype d).symm.trans hd), ?_, ?_,
    fun a b hab => ((hadj a b).1 hab).1, ?_, ?_⟩
  · intro c hc
    obtain ⟨t, ht, hcmd⟩ := Option.map_eq_some_iff.1 hc
    have hmem : c ∈ (tupDbModifyCmdsByInput (tupDbSetDependentDirFlags db i) i).flags.modify ↔
        c ∈ db.flags.modify ∨ c ∈ dependents (tupDbSetDependentDirFlags db i) i
          fun type => type = .cmd || type = .group := Finset.mem_union
    have hdep : c ∈ dependents (tupDbSetDependentDirFlags db i) i
        (fun type => type = .cmd || type = .group) ↔ NormalAdj db i c := by
      rw [mem_dependents]
      exact and_iff_left ⟨t, ht, by simp [hcmd]⟩
    show c ∈ m.flags.modify ↔ _
    rw [hgrow.modify, hmem, hdep]
    exact .rfl
  · exact (Finset.subset_union_left).trans hgrow.create
  · intro a c hac hl hc
    rw [hlost a c .cmd hac hl hc (by decide)] at hac
    exact hac
  · intro a d had hl hd
    obtain ⟨t, ht, hdir⟩ := Option.map_eq_some_iff.1 hd
    rw [hlost a d .dir had hl hd (by decide)] at had
    apply hgrow.create
    exact Finset.mem_union_right _ (mem_dependents.2 ⟨had, t, ht, by simp [hdir]⟩)

theorem post_upgradeGhost {tent : TupEntry} {type : NodeType} {srcid i : TupId} {b : Bool}
    (hp : type = .dir → ∀ d, p d)
    (hghost : nodeType db tent.tupid = some .ghost)
    (h : upgradeGhost db tent type srcid = some (db', i, b)) :
    Post p db {c | type = .generated ∧ NormalAdj db tent.tupid c} db' := by
  obtain ⟨m, hm, h⟩ := Option.bind_eq_some_iff.1 h
  obtain ⟨hdb, -⟩ := Prod.mk.inj (Option.some.inj h)
  have hunlink : Post p db {c | type = .generated ∧ NormalAdj db tent.tupid c} m ∧
      nodeType m tent.tupid = some .ghost := by
    unfold unlinkGhost at hm
    split at hm
    · cases hm
      have hE : {c | NodeType.var = .generated ∧ NormalAdj db tent.tupid c} = (∅ : Set TupId) := by
        ext c
        simp
      rw [hE]
      exact ⟨.of_grows (.addCreate _ _), hghost⟩
    · have hE : {c | NodeType.generated = .generated ∧ NormalAdj db tent.tupid c} =
          {c | NormalAdj db tent.tupid c} := by
        ext c
        simp
      rw [hE]
      refine ⟨post_unlinkGhost hghost hm, ?_⟩
      obtain ⟨m₁, hgrow, rfl⟩ := tupDbDeleteLinks_eq hm
      unfold nodeType
      exact (congrArg _ (hgrow.tupEntryAdd _)).trans hghost
    · next hne =>
      cases hm
      have hE : {c | type = .generated ∧ NormalAdj db tent.tupid c} = (∅ : Set TupId) := by
        ext c
        exact ⟨fun h => hne h.1, fun h => h.elim⟩
      rw [hE]
      exact ⟨.of_grows (.refl _), hghost⟩
  obtain ⟨hpost, hghost'⟩ := hunlink
  have hvariants : ∀ (d : Db) (l : List Variant), Grows d { d with variants := l } :=
    fun _ _ => ⟨rfl, rfl, rfl, subset_rfl⟩
  rw [← hdb]
  split
  · have hadd : Post p m ∅ (m.addModify tent.tupid) := .addModify (by rw [hghost']; decide)
    have hset : Post p (m.addModify tent.tupid) ∅
        (tupDbSetType (m.addModify tent.tupid) tent.tupid type) :=
      post_setType (show nodeType (m.addModify tent.tupid) tent.tupid = _ from hghost') (by decide)
        (by decide) (.inr (Finset.mem_insert_self _ _)) fun htype => hp htype _
    have hsrc : Post p (tupDbSetType (m.addModify tent.tupid) tent.tupid type) ∅ (tupDbSetSrcid
        (tupDbSetType (m.addModify tent.tupid) tent.tupid type) tent.tupid srcid) :=
      .updateNode_of_type (fun _ => rfl) fun _ => rfl
    exact (((hpost.step hadd).step hset).step hsrc).step (.of_grows (hvariants _ _))
  · exact hpost.step (.of_grows (hvariants _ _))

theorem post_refreshNode {tent row : TupEntry} {i : TupId} {b : Bool}
    (h : refreshNode db tent row = some (db', i, b)) : Post p db ∅ db' := by
  obtain ⟨m, hm, h⟩ := Option.bind_eq_some_iff.1 h
  split at h
  · cases h
  · obtain ⟨hdb, -⟩ := Prod.mk.inj (Option.some.inj h)
    generalize hs : (if row.srcid ≠ -1 ∧ tent.srcid ≠ row.srcid
      then tupDbSetSrcid db tent.tupid row.srcid else db) = s at hm
    have hsrc : Post p db ∅ s := by
      rw [← hs]
      split
      · exact .updateNode_of_type (fun _ => rfl) fun _ => rfl
      · exact .of_grows (.refl _)
    have hname : Post p s ∅ m := by
      unfold respellNode at hm
      split at hm
      · obtain ⟨u, -, hm⟩ := Option.bind_eq_some_iff.1 hm
        split at hm
        · cases hm
          exact .of_grows (.refl _)
        · split at hm
          · cases hm
          · cases hm
            exact .updateNode_of_type (fun _ => rfl) fun _ => rfl
      · cases hm
        exact .of_grows (.refl _)
    rw [← hdb]
    split
    · exact (hsrc.step hname).step (.updateNode_of_type (fun _ => rfl) fun _ => rfl)
    · exact hsrc.step hname

theorem post_fileModified (db : Db) (i dt : TupId) (file : Text) :
    Post p db ∅ (fileModified db i dt file) := by
  have hconfig : Post p db ∅ (if file = tupConfig then db.addConfig i else db) := by
    split
    · exact .of_grows (.addConfig _ _)
    · exact .of_grows (.refl _)
  unfold fileModified
  dsimp only
  split
  · exact hconfig.step (.of_grows (.addCreate _ _))
  · exact hconfig

/-- A file whose time has changed; only the commands that generate it are flagged. -/
theorem post_fileChanged {i : TupId} {mtime : Int × Int} {changed : Bool}
    (htype : nodeType db i = some .file ∨ nodeType db i = some .generated)
    (h : fileChanged db i mtime changed = some db') :
    ∃ E, Post p db E db' ∧ (nodeType db i = some .file → E = ∅) := by
  unfold fileChanged at h
  split at h
  · cases h
    exact ⟨∅, .of_grows (.refl _), fun _ => rfl⟩
  obtain ⟨tent, htent, h⟩ := Option.bind_eq_some_iff.1 h
  have hty := nodeType_of_tupEntryAdd htent
  generalize hm : (if tent.type = .generated then (tupDbModifyCmdsByOutput db i).1 else db) = m at h
  have hout : ∃ E, Post p db E m ∧ (nodeType db i = some .file → E = ∅) := by
    rw [← hm]
    split
    · next hgen =>
      refine ⟨{c | NormalAdj db c i}, ?_, ?_⟩
      · refine ⟨fun _ hc => hc, fun _ hd => hd, fun _ hc => .inl hc, fun _ hd => .inl hd,
          fun c _ => mem_modifyCmdsByOutput, subset_rfl, fun _ _ hab => hab, ?_, ?_⟩
        · exact fun _ _ hac hlost _ => absurd hac hlost
        · exact fun _ _ had hlost _ => absurd had hlost
      · intro hfile
        rw [hty, hgen] at hfile
        cases hfile
    · exact ⟨∅, .of_grows (.refl _), fun _ => rfl⟩
  obtain ⟨E, hE, hfile⟩ := hout
  have hmtype : nodeType m i = nodeType db i := by
    rw [← hm]
    split <;> rfl
  have hadd : Post p m ∅ (m.addModify i) := by
    apply Post.addModify
    rw [hmtype]
    rcases htype with htype | htype <;> rw [htype] <;> decide
  have hflag : Post p (m.addModify i) ∅ (tupDbSetDependentFlags (m.addModify i) i) :=
    .of_grows (.setDependentFlags _ _)
  refine ⟨E, ?_, hfile⟩
  have hdb := Option.some.inj h
  rw [← hdb]
  split
  · exact ((hE.step hadd).step hflag).step (.updateNode_of_type (fun _ => rfl) fun _ => rfl)
  · exact (hE.step hadd).step hflag

end

/-! ### The condition -/

/-- A removal does not visit the node. -/
def Untouched (db : Db) (v : Visit) (i : TupId) : Prop := ∀ w, Visits db v w → i ≠ w.id

/-- Every command that a node removed as neither file nor generated file leads to is put into the
modify list for another reason, `E` being the commands that are flagged after the removal. -/
def CmdsCond (db : Db) (v : Visit) (E : Set TupId) : Prop :=
  ∀ w c, Visits db v w → w.Cuts → w.tent.type ≠ .file → w.tent.type ≠ .generated →
    NormalAdj db w.id c → nodeType db c = some .cmd → Untouched db v c →
      c ∈ db.flags.modify ∨ (∃ u, Visits db v u ∧ u.FlagsCmd db c) ∨ c ∈ E

/-- Every directory that a node removed as neither file nor directory leads to is in the create list
already. -/
def DirsCond (db : Db) (v : Visit) : Prop :=
  ∀ w d, Visits db v w → w.Cuts → w.tent.type ≠ .file → w.tent.type ≠ .dir →
    NormalAdj db w.id d → nodeType db d = some .dir → Untouched db v d → d ∈ db.flags.create

section

variable {p : TupId → Prop} {db db₁ db' : Db} {v : Visit} {E : Set TupId}

/-- A node that is not visited keeps its type. -/
theorem Untouched.nodeType (hrem : Removes db {x | Visits db v x} db₁) {i : TupId}
    (h : Untouched db v i) : nodeType db₁ i = nodeType db i := by
  have hstays := hrem.stays i fun w hw => (h w hw).symm
  have key : ∀ o : Option TupEntry,
      o.map TupEntry.type = (o.map TupEntry.core).map TupEntry.type := by
    intro o
    rw [Option.map_map]
    rfl
  unfold Metatup.nodeType
  rw [key, key (tupEntryAdd db i), hstays]

/-- A visited row is one of the database. -/
theorem Visits.mem_node {w : Visit} (hv : v.tent ∈ db.node) (hw : Visits db v w) :
    w.tent ∈ db.node := by
  rcases Relation.ReflTransGen.cases_tail hw with rfl | ⟨u, -, hstep⟩
  · exact hv
  · exact hstep.1

/-- A visited command or directory does not stay one. -/
theorem untouched_of_nodeType (h : db.Tree) (hrem : Removes db {x | Visits db v x} db₁)
    (hv : v.tent ∈ db.node) {i : TupId} {type : NodeType} (hi : nodeType db i = some type)
    (hi₁ : nodeType db₁ i = some type) (htype : type = .cmd ∨ type = .dir) :
    Untouched db v i := by
  rintro w hw rfl
  obtain ⟨t, ht, hty⟩ := Option.map_eq_some_iff.1 hi
  obtain ⟨hmem, hid⟩ := mem_node_of_tupEntryAdd ht
  have htw : t = w.tent := h.eq_of_tupid hmem (hw.mem_node hv) hid
  have hfade : w.Ghosts := by
    by_cases hname : w.tent.name = tupConfig
    · exact .inr (.inl hname)
    · refine .inl ⟨hname, ?_⟩
      rw [← htw, hty]
      rcases htype with rfl | rfl <;> trivial
  obtain ⟨t₁, ht₁, hty₁⟩ := Option.map_eq_some_iff.1 hi₁
  have hghost := hrem.gone w hw hfade t₁ ht₁
  rw [hghost] at hty₁
  rcases htype with rfl | rfl <;> cases hty₁

/-- The commands are kept exactly under the condition. -/
theorem cmdsKept_iff (h : db.Tree) (hv : v.tent ∈ db.node)
    (hrem : Removes db {x | Visits db v x} db₁) (hpost : Post p db₁ E db') :
    CmdsKept db db' ↔ CmdsCond db v E := by
  have hmodify : ∀ c, nodeType db c = some .cmd → Untouched db v c →
      nodeType db' c = some .cmd ∧ (c ∈ db'.flags.modify ↔
        c ∈ db.flags.modify ∨ (∃ u, Visits db v u ∧ u.FlagsCmd db c) ∨ c ∈ E) := by
    intro c hc hun
    have hc₁ : nodeType db₁ c = some .cmd := (hun.nodeType hrem).trans hc
    refine ⟨hpost.cmd c hc₁, ?_⟩
    rw [hpost.modify c hc₁, hrem.modify c hc₁, or_assoc]
    exact .rfl
  constructor
  · intro hkept w c hw hcut _ _ hadj hc hun
    obtain ⟨hc', hmod⟩ := hmodify c hc hun
    refine hmod.1 (hkept w.id c hadj ?_ hc hc')
    intro hadj'
    exact ((hrem.links w.id c).1 (hpost.links _ _ hadj')).2 w hw hcut |>.1 rfl
  · intro hcond x c hadj hlost hc hc'
    rcases hpost.newCmd c hc' with hc₁ | hmod
    swap
    · exact hmod
    have hun := untouched_of_nodeType h hrem hv hc hc₁ (.inl rfl)
    obtain ⟨-, hmod⟩ := hmodify c hc hun
    rw [hmod]
    by_cases hadj₁ : NormalAdj db₁ x c
    · exact .inr (.inr (hpost.lostCmd x c hadj₁ hlost hc₁))
    · rw [hrem.links, not_and] at hadj₁
      obtain ⟨w, hw⟩ := not_forall.1 (hadj₁ hadj)
      simp only [Classical.not_imp, not_and] at hw
      obtain ⟨hw, hcut, hend⟩ := hw
      have hx : x = w.id := by
        by_contra hx
        exact hend hx (hun w hw)
      rw [hx] at hadj
      by_cases hfile : w.tent.type = .file ∨ w.tent.type = .generated
      · exact .inr (.inl ⟨w, hw, .inl ⟨hcut, hfile, hadj⟩⟩)
      · obtain ⟨hf, hg⟩ := not_or.1 hfile
        exact hcond w c hw hcut hf hg hadj hc hun

/-- The directories are kept under the condition. -/
theorem dirsKept_of_cond (h : db.Tree) (hv : v.tent ∈ db.node)
    (hrem : Removes db {x | Visits db v x} db₁) (hpost : Post p db₁ E db')
    (hnew : ∀ d, nodeType db d = some .dir → nodeType db' d = some .dir →
      nodeType db₁ d = some .dir) (hcond : DirsCond db v) : DirsKept db db' := by
  intro x d hadj hlost hd hd'
  have hd₁ := hnew d hd hd'
  have hun := untouched_of_nodeType h hrem hv hd hd₁ (.inr rfl)
  by_cases hadj₁ : NormalAdj db₁ x d
  · exact hpost.lostDir x d hadj₁ hlost hd₁
  · rw [hrem.links, not_and] at hadj₁
    obtain ⟨w, hw⟩ := not_forall.1 (hadj₁ hadj)
    simp only [Classical.not_imp, not_and] at hw
    obtain ⟨hw, hcut, hend⟩ := hw
    have hx : x = w.id := by
      by_contra hx
      exact hend hx (hun w hw)
    rw [hx] at hadj
    apply hpost.create
    apply hrem.create d hd₁
    by_cases htype : w.tent.type = .file ∨ w.tent.type = .dir
    · exact .inr ⟨w, hw, hcut, htype, hadj⟩
    · obtain ⟨hf, hdir⟩ := not_or.1 htype
      exact .inl (hcond w d hw hcut hf hdir hadj hd hun)

/-- Without a removal everything is kept. -/
theorem kept_of_post (hpost : Post p db E db') : CmdsKept db db' ∧ DirsKept db db' := by
  constructor
  · intro x c hadj hlost hc _
    exact (hpost.modify c hc).2 (.inr (hpost.lostCmd x c hadj hlost hc))
  · intro x d hadj hlost hd _
    exact hpost.lostDir x d hadj hlost hd

/-- What has the name of a removed node is what is left of that node. -/
theorem row_of_select (h : db.Tree) (hv : v.tent ∈ db.node)
    (hrem : Removes db {x | Visits db v x} db₁) {t : TupEntry}
    (hsel : tupDbSelectTent db₁ v.tent.dt v.tent.name = some t) :
    t.tupid = v.id ∧ tupEntryAdd db₁ v.id = some t := by
  obtain ⟨hmem, hdt, hname⟩ := mem_of_tupDbSelectTent hsel
  have hrow : tupEntryAdd db₁ t.tupid = some t := by
    obtain ⟨u, hu⟩ : ∃ u, tupEntryAdd db₁ t.tupid = some u :=
      Option.isSome_iff_exists.1 (List.find?_isSome.2 ⟨t, hmem, by simp⟩)
    obtain ⟨humem, hid⟩ := mem_node_of_tupEntryAdd hu
    rw [hu, List.inj_on_of_nodup_map (hrem.nodup h.nodup) humem hmem hid]
  have hfades := hrem.fades t.tupid
  rw [hrow] at hfades
  obtain ⟨u, hu, htdt, htname⟩ := hfades.place
  obtain ⟨humem, huid⟩ := mem_node_of_tupEntryAdd hu
  have huv : u = v.tent := h.names u humem v.tent hv (htdt.symm.trans hdt) (htname.symm.trans hname)
  have hid : t.tupid = v.id := by rw [← huid, huv]
  exact ⟨hid, hid ▸ hrow⟩

end

/-! ### The calls -/

/-- A call that can remove a node or change its type. -/
inductive NodeCall
  | delIdType (i : TupId) (force : Bool)
  | fileMissing (i : TupId)
  | fileModMtime (dt : TupId) (file : Text) (mtime : Int × Int) (force ignoreGenerated : Bool)
  | createNode (row : TupEntry)
  | changeNode (i : TupId) (newName : Text) (newDt : TupId)

/-- The database after a call. -/
def NodeCall.run (fuel : ℕ) (db : Db) : NodeCall → Option Db
  | .delIdType i force => (tupDelIdType fuel db i force).map Prod.fst
  | .fileMissing i => (tupEntryAdd db i).bind (tupFileMissing fuel db)
  | .fileModMtime dt file mtime force ignoreGenerated =>
    (tupFileModMtime fuel db dt file mtime force ignoreGenerated).map Prod.fst
  | .createNode row => (tupDbCreateNodePartDisplay fuel db row).map Prod.fst
  | .changeNode i newName newDt => tupDbChangeNode fuel db i newName newDt

/-- The visit that the removal of a call starts with, if it removes anything. -/
def NodeCall.visit (db : Db) : NodeCall → Option Visit
  | .delIdType i force => (tupEntryAdd db i).map fun t => ⟨t, force⟩
  | .fileMissing i => (tupEntryAdd db i).map fun t => ⟨t, missingForce db t⟩
  | .fileModMtime dt file _ _ _ =>
    (tupDbSelectTent db dt file).bind fun t =>
      if t.type = .file ∨ t.type = .generated ∨ t.type = .ghost then none else some ⟨t, true⟩
  | .createNode row =>
    (tupDbSelectTent db row.dt row.name).bind fun t =>
      if t.type = .ghost ∨ t.type = row.type ∨ (t.type = .generatedDir ∧ row.type = .dir) then none
      else some ⟨t, true⟩
  | .changeNode _ _ _ => none

/-- The commands that a call flags after the removal: a node that is not cut by it, but becomes a
generated file in place of a ghost, is taken out of the links then. -/
def NodeCall.flagged (db : Db) (v : Visit) : NodeCall → Set TupId
  | .createNode row => {c | row.type = .generated ∧ ¬ v.Cuts ∧ NormalAdj db v.id c}
  | _ => ∅

/-- The condition under which a call keeps the commands. -/
def NodeCall.CmdsOk (db : Db) (call : NodeCall) : Prop :=
  ∀ v, call.visit db = some v → CmdsCond db v (call.flagged db v)

/-- The condition under which a call keeps the directories. -/
def NodeCall.DirsOk (db : Db) : NodeCall → Prop
  | .changeNode _ newName newDt => ∀ t g d, tupDbSelectTent db newDt newName = some t →
      t.type = .ghost → Relation.ReflTransGen (ParentOf db) g t.tupid → NormalAdj db g d →
        nodeType db d = some .dir → d ∈ db.flags.create
  | call => ∀ v, call.visit db = some v → DirsCond db v

section

variable {db db' : Db} {fuel : ℕ}

theorem delIdType_removes (h : db.Tree) {i : TupId} {t : TupEntry} {force b : Bool}
    (ht : tupEntryAdd db i = some t) (hrun : tupDelIdType fuel db i force = some (db', b)) :
    t ∈ db.node ∧ Removes db {x | Visits db ⟨t, force⟩ x} db' := by
  obtain ⟨hmem, rfl⟩ := mem_node_of_tupEntryAdd ht
  have hrem := tupDelIdType_spec h fuel ∅ ⟨t, force⟩ db db' b hmem (.refl db)
    (fun _ _ u hu => hu.elim) hrun
  rw [Set.empty_union] at hrem
  exact ⟨hmem, hrem⟩

/-- A removal alone. -/
theorem kept_of_removes (h : db.Tree) {v : Visit} (hv : v.tent ∈ db.node)
    (hrem : Removes db {x | Visits db v x} db') :
    (CmdsKept db db' ↔ CmdsCond db v ∅) ∧ (DirsCond db v → DirsKept db db') := by
  have hpost : Post (fun _ => False) db' ∅ db' := .of_grows (.refl db')
  exact ⟨cmdsKept_iff h hv hrem hpost,
    dirsKept_of_cond h hv hrem hpost fun _ _ hd => hd⟩

/-- A group can neither be removed nor made something else. -/
theorem createNode_group {row t : TupEntry} (hsel : tupDbSelectTent db row.dt row.name = some t)
    (hrow : tupEntryAdd db t.tupid = some t) (hgroup : t.type = .group) (hne : row.type ≠ .group)
    (hname : t.name ≠ tupConfig) : tupDbCreateNodePartDisplay fuel db row = none := by
  induction fuel with
  | zero => rfl
  | succ fuel ih =>
    have hdel : ∀ r, tupDelIdType fuel db t.tupid true = some r → r.1 = db := by
      intro r hr
      cases fuel with
      | zero => cases hr
      | succ fuel =>
        unfold tupDelIdType checkRmTupConfig at hr
        rw [hrow, Option.bind_eq_bind, Option.bind_some, if_neg hname] at hr
        simp only [hgroup] at hr
        cases hr
        rfl
    unfold tupDbCreateNodePartDisplay
    rw [hsel]
    have hmis : t.type ≠ row.type ∧ ¬ (t.type = .generatedDir ∧ row.type = .dir) := by
      rw [hgroup]
      exact ⟨fun h => hne h.symm, fun h => by cases h.1⟩
    simp only [hgroup, reduceCtorEq, if_false] at hmis ⊢
    rw [if_pos hmis, Option.bind_eq_bind, Option.bind_eq_none_iff]
    rintro ⟨db₁, b⟩ hr
    obtain rfl : db₁ = db := hdel _ hr
    exact ih

theorem CmdsCond.congr {v : Visit} {E F : Set TupId}
    (h : ∀ c, nodeType db c = some .cmd → Untouched db v c → (c ∈ E ↔ c ∈ F)) :
    CmdsCond db v E ↔ CmdsCond db v F := by
  unfold CmdsCond
  refine forall_congr' fun w => forall_congr' fun c => forall_congr' fun _ => forall_congr' fun _ =>
    forall_congr' fun _ => forall_congr' fun _ => forall_congr' fun _ => forall_congr' fun hc =>
    forall_congr' fun hun => ?_
  rw [h c hc hun]

/-- Only the first visit is to its node. -/
theorem Visits.eq_of_id (h : db.Tree) {v w : Visit} (hw : Visits db v w) (hid : w.id = v.id) :
    w = v := by
  rcases visits_iff.1 hw with rfl | ⟨u, hu, hw⟩
  · rfl
  · exact absurd hid (Visits.ne_of_step h hu hw)

/-- The links of the start of a removal to a node that is not visited are dropped exactly when the
start is cut. -/
theorem Removes.links_start (h : db.Tree) {v : Visit} {c : TupId}
    (hrem : Removes db {x | Visits db v x} db') (hun : Untouched db v c) :
    NormalAdj db' v.id c ↔ ¬ v.Cuts ∧ NormalAdj db v.id c := by
  rw [hrem.links]
  constructor
  · rintro ⟨hadj, hall⟩
    exact ⟨fun hcut => (hall v .refl hcut).1 rfl, hadj⟩
  · rintro ⟨hcut, hadj⟩
    refine ⟨hadj, fun w hw hwcut => ⟨fun hid => ?_, hun w hw⟩⟩
    rw [hw.eq_of_id h hid.symm] at hwcut
    exact hcut hwcut

/-- Nothing is left of the name of a removed node only if the node was cut. -/
theorem cuts_of_select_none (h : db.Tree) {v : Visit} (hv : v.tent ∈ db.node)
    (hrem : Removes db {x | Visits db v x} db')
    (hsel : tupDbSelectTent db' v.tent.dt v.tent.name = none) : v.Cuts := by
  by_contra hcut
  have hrow : tupEntryAdd db v.id = some v.tent := h.tupEntryAdd_of_mem hv
  have hsome := hrem.remains v.id (fun w hw hwcut hid => by
    rw [hw.eq_of_id h hid] at hwcut
    exact hcut hwcut) (by rw [hrow]; rfl)
  obtain ⟨t, ht⟩ := Option.isSome_iff_exists.1 hsome
  obtain ⟨hmem, -⟩ := mem_node_of_tupEntryAdd ht
  have hfades := hrem.fades v.id
  rw [ht, hrow] at hfades
  obtain ⟨u, hu, hdt, hname⟩ := hfades.place
  cases hu
  have hnone := List.find?_eq_none.1 hsel t hmem
  simp [hdt, hname] at hnone

theorem createNode_kept (h : db.Tree) {row : TupEntry} {i : TupId} {b : Bool}
    (hrun : tupDbCreateNodePartDisplay fuel db row = some (db', i, b)) :
    (CmdsKept db db' ↔ (NodeCall.createNode row).CmdsOk db) ∧
      ((NodeCall.createNode row).DirsOk db → DirsKept db db') := by
  -- the calls that remove nothing
  have hnone : ∀ p E, Post p db E db' → (NodeCall.createNode row).visit db = none →
      (CmdsKept db db' ↔ (NodeCall.createNode row).CmdsOk db) ∧
        ((NodeCall.createNode row).DirsOk db → DirsKept db db') := by
    intro p E hpost hvisit
    obtain ⟨hcmds, hdirs⟩ := kept_of_post hpost
    refine ⟨iff_of_true hcmds fun v hv => ?_, fun _ => hdirs⟩
    rw [hvisit] at hv
    cases hv
  cases hsel : tupDbSelectTent db row.dt row.name with
  | none =>
    cases fuel with
    | zero => cases hrun
    | succ fuel =>
      unfold tupDbCreateNodePartDisplay at hrun
      rw [hsel] at hrun
      obtain ⟨⟨db₁, tent⟩, hins, hrun⟩ := Option.bind_eq_some_iff.1 hrun
      cases hrun
      exact hnone (fun _ => True) ∅ (post_nodeInsert (fun _ _ => trivial) hins)
        (by simp [NodeCall.visit, hsel])
  | some t =>
    obtain ⟨hmem, hdt, hname⟩ := mem_of_tupDbSelectTent hsel
    have hrow := h.tupEntryAdd_of_mem hmem
    have hfull := hrun
    cases fuel with
    | zero => cases hrun
    | succ fuel =>
      unfold tupDbCreateNodePartDisplay at hrun
      rw [hsel] at hrun
      dsimp only at hrun
      split at hrun
      · next hghost =>
        have htype : nodeType db t.tupid = some .ghost := hghost ▸ nodeType_of_tupEntryAdd hrow
        exact hnone (fun _ => True) _ (post_upgradeGhost (fun _ _ => trivial) htype hrun)
          (by simp [NodeCall.visit, hsel, hghost])
      · next hghost =>
        split at hrun
        swap
        · next hstay =>
          have hor : t.type = row.type ∨ (t.type = .generatedDir ∧ row.type = .dir) := by
            by_contra hcon
            obtain ⟨h₁, h₂⟩ := not_or.1 hcon
            exact hstay ⟨h₁, h₂⟩
          exact hnone (fun _ => True) ∅ (post_refreshNode hrun)
            (by simp [NodeCall.visit, hsel, hor])
        · next hmis =>
          obtain ⟨⟨db₁, b₁⟩, hdel, hrun⟩ := Option.bind_eq_some_iff.1 hrun
          obtain ⟨-, hrem⟩ := delIdType_removes h hrow hdel
          have hvisit : (NodeCall.createNode row).visit db = some ⟨t, true⟩ := by
            have hneg : ¬ (t.type = .ghost ∨ t.type = row.type ∨
                (t.type = .generatedDir ∧ row.type = .dir)) := by
              rintro (h₁ | h₁ | h₁)
              · exact hghost h₁
              · exact hmis.1 h₁
              · exact hmis.2 h₁
            unfold NodeCall.visit
            dsimp only
            rw [hsel, Option.bind_some, if_neg hneg]
          have hok : (NodeCall.createNode row).CmdsOk db ↔
              CmdsCond db ⟨t, true⟩ ((NodeCall.createNode row).flagged db ⟨t, true⟩) := by
            unfold NodeCall.CmdsOk
            rw [hvisit]
            simp
          have hdok : (NodeCall.createNode row).DirsOk db → DirsCond db ⟨t, true⟩ :=
            fun hd => hd _ hvisit
          rw [hok]
          have hdirs : ∀ E, Post (fun _ => row.type = .dir) db₁ E db' →
              (NodeCall.createNode row).DirsOk db → DirsKept db db' := by
            intro E hpost hd
            apply dirsKept_of_cond h hmem hrem hpost _ (hdok hd)
            intro d hd hd'
            rcases hpost.newDir d hd' with hd₁ | hdir
            · exact hd₁
            · -- a node that makes room for a directory has nothing below it
              rw [hdir] at hmis
              have hsingle : {x | Visits db ⟨t, true⟩ x} = {⟨t, true⟩} := by
                apply visits_eq_singleton
                rintro w ⟨-, -, -, ⟨hty, -⟩ | ⟨hty, -⟩⟩
                · exact hmis.1 hty
                · exact hmis.2 ⟨hty, rfl⟩
              have hun : Untouched db ⟨t, true⟩ d := by
                intro w hw hid
                have hw : w ∈ ({⟨t, true⟩} : Set Visit) := hsingle ▸ hw
                rw [Set.mem_singleton_iff.1 hw] at hid
                have htype := nodeType_of_tupEntryAdd hrow
                have hid : d = t.tupid := hid
                rw [← hid, hd] at htype
                exact hmis.1 (Option.some.inj htype).symm
              rw [hun.nodeType hrem]
              exact hd
          cases fuel with
          | zero => cases hrun
          | succ fuel =>
            unfold tupDbCreateNodePartDisplay at hrun
            cases hsel₁ : tupDbSelectTent db₁ row.dt row.name with
            | none =>
              rw [hsel₁] at hrun
              obtain ⟨⟨db₂, tent⟩, hins, hrun⟩ := Option.bind_eq_some_iff.1 hrun
              cases hrun
              have hpost : Post (fun _ => row.type = .dir) db₁ ∅ db' :=
                post_nodeInsert (fun hdir _ => hdir) hins
              rw [← hdt, ← hname] at hsel₁
              have hcut := cuts_of_select_none h (v := ⟨t, true⟩) hmem hrem hsel₁
              refine ⟨(cmdsKept_iff h hmem hrem hpost).trans (CmdsCond.congr fun c _ _ => ?_),
                hdirs ∅ hpost⟩
              exact iff_of_false (fun hc => hc) fun hc => hc.2.1 hcut
            | some t₁ =>
              rw [hsel₁] at hrun
              dsimp only at hrun
              have hleft := hsel₁
              rw [← hdt, ← hname] at hleft
              obtain ⟨hid, hrow₁⟩ := row_of_select h (v := ⟨t, true⟩) hmem hrem hleft
              have hghosts : (⟨t, true⟩ : Visit).Ghosts := by
                by_cases hcfg : t.name = tupConfig
                · exact .inr (.inl hcfg)
                · cases hty : t.type with
                  | ghost => exact absurd hty hghost
                  | group =>
                    rw [createNode_group hsel hrow hty (hty ▸ Ne.symm hmis.1) hcfg] at hfull
                    cases hfull
                  | generatedDir => exact .inr (.inr ⟨hty, rfl⟩)
                  | generated => exact .inl ⟨hcfg, by rw [hty]⟩
                  | file | cmd | dir | var | root => exact .inl ⟨hcfg, by rw [hty]; trivial⟩
              have hghost₁ : t₁.type = .ghost := hrem.gone _ .refl hghosts t₁ hrow₁
              rw [if_pos hghost₁] at hrun
              have htype : nodeType db₁ t₁.tupid = some .ghost := by
                rw [hid, nodeType_of_tupEntryAdd hrow₁, hghost₁]
              have hpost : Post (fun _ => row.type = .dir) db₁ _ db' :=
                post_upgradeGhost (fun hdir _ => hdir) htype hrun
              refine ⟨(cmdsKept_iff h hmem hrem hpost).trans (CmdsCond.congr fun c _ hun => ?_),
                hdirs _ hpost⟩
              rw [hid]
              exact and_congr_right fun _ => Removes.links_start h hrem hun

/-- The end of `tup_file_mod_mtime`: the node is a file, and one whose time has changed is handled. -/
theorem post_fileDone {p : TupId → Prop} {i dt : TupId} {file : Text} {mtime : Int × Int}
    {changed new : Bool} {db₁ : Db}
    (htype : nodeType db i = some .file ∨ nodeType db i = some .generated)
    (h : fileChanged db i mtime changed = some db₁) :
    ∃ E, Post p db E (if new || changed then fileModified db₁ i dt file else db₁) ∧
      (nodeType db i = some .file → E = ∅) := by
  obtain ⟨E, hE, hfile⟩ := post_fileChanged htype h
  refine ⟨E, ?_, hfile⟩
  split
  · exact hE.step (post_fileModified _ _ _ _)
  · exact hE

theorem fileModMtime_kept (h : db.Tree) {dt i : TupId} {file : Text} {mtime : Int × Int}
    {force ignoreGenerated b : Bool}
    (hrun : tupFileModMtime fuel db dt file mtime force ignoreGenerated = some (db', i, b)) :
    (CmdsKept db db' ↔ (NodeCall.fileModMtime dt file mtime force ignoreGenerated).CmdsOk db) ∧
      ((NodeCall.fileModMtime dt file mtime force ignoreGenerated).DirsOk db →
        DirsKept db db') := by
  generalize hcall : NodeCall.fileModMtime dt file mtime force ignoreGenerated = call
  -- the calls that remove nothing
  have hnone : ∀ p E, Post p db E db' → call.visit db = none →
      (CmdsKept db db' ↔ call.CmdsOk db) ∧ (call.DirsOk db → DirsKept db db') := by
    intro p E hpost hvisit
    obtain ⟨hcmds, hdirs⟩ := kept_of_post hpost
    refine ⟨iff_of_true hcmds fun v hv => ?_, fun _ => hdirs⟩
    rw [hvisit] at hv
    cases hv
  obtain ⟨dtent, -, hrun⟩ := Option.bind_eq_some_iff.1 hrun
  split at hrun
  · next hsel =>
    obtain ⟨⟨db₁, tent⟩, hcreate, hrun⟩ := Option.bind_eq_some_iff.1 hrun
    cases hrun
    obtain ⟨hpost, -⟩ := post_createNameFile (p := fun _ => True) (fun _ _ => trivial) hcreate
    refine hnone _ _ (hpost.step (post_fileModified _ _ _ _)) ?_
    simp [← hcall, NodeCall.visit, hsel]
  · next tent hsel =>
    obtain ⟨hmem, hdt, hname⟩ := mem_of_tupDbSelectTent hsel
    have hrow := h.tupEntryAdd_of_mem hmem
    have htype := nodeType_of_tupEntryAdd hrow
    obtain ⟨⟨db₁, j, new⟩, hbecome, hrun⟩ := Option.bind_eq_some_iff.1 hrun
    obtain ⟨db₂, hchanged, hrun⟩ := Option.bind_eq_some_iff.1 hrun
    obtain ⟨hdb, -⟩ := Prod.mk.inj (Option.some.inj hrun)
    unfold becomeFile at hbecome
    split at hbecome
    · next hfile =>
      cases hbecome
      obtain ⟨E, hE, -⟩ := post_fileDone (p := fun _ => True) (.inl (hfile ▸ htype)) hchanged
      rw [hdb] at hE
      exact hnone _ E hE (by simp [← hcall, NodeCall.visit, hsel, hfile])
    · next hgen =>
      cases hbecome
      obtain ⟨E, hE, -⟩ := post_fileDone (p := fun _ => True) (.inr (hgen ▸ htype)) hchanged
      rw [hdb] at hE
      exact hnone _ E hE (by simp [← hcall, NodeCall.visit, hsel, hgen])
    · next hghost =>
      obtain ⟨db₃, hg, hbecome⟩ := Option.bind_eq_some_iff.1 hbecome
      cases hbecome
      obtain ⟨hpost, hfile⟩ := post_ghostToFile (p := fun _ => True) (hghost ▸ htype) hg
      obtain ⟨E, hE, -⟩ := post_fileDone (p := fun _ => True) (.inl hfile) hchanged
      rw [hdb] at hE
      exact hnone _ _ (hpost.trans hE) (by simp [← hcall, NodeCall.visit, hsel, hghost])
    · next hf hg hgh =>
      obtain ⟨⟨db₃, b₁⟩, hdel, hbecome⟩ := Option.bind_eq_some_iff.1 hbecome
      obtain ⟨-, hrem⟩ := delIdType_removes h hrow hdel
      have hvisit : call.visit db = some ⟨tent, true⟩ := by
        have hneg : ¬ (tent.type = .file ∨ tent.type = .generated ∨ tent.type = .ghost) := by
          rintro (h₁ | h₁ | h₁)
          · exact hf h₁
          · exact hg h₁
          · exact hgh h₁
        rw [← hcall]
        unfold NodeCall.visit
        dsimp only
        rw [hsel, Option.bind_some, if_neg hneg]
      have hok : call.CmdsOk db ↔ CmdsCond db ⟨tent, true⟩ ∅ := by
        unfold NodeCall.CmdsOk
        rw [hvisit]
        simp [← hcall, NodeCall.flagged]
      have hdok : call.DirsOk db → DirsCond db ⟨tent, true⟩ := by
        intro hd
        rw [← hcall] at hd hvisit
        exact hd _ hvisit
      have hpost : Post (fun d => nodeType db₃ d = some .generatedDir) db₃ ∅ db' := by
        dsimp only at hbecome
        split at hbecome
        · obtain ⟨⟨db₄, t₁⟩, hcreate, hbecome⟩ := Option.bind_eq_some_iff.1 hbecome
          cases hbecome
          obtain ⟨hpost, hfile⟩ := post_createNameFile (fun _ hd => hd) hcreate
          obtain ⟨E, hE, hempty⟩ := post_fileDone (.inl hfile) hchanged
          rw [hdb, hempty hfile] at hE
          exact hpost.step hE
        · next t₁ hsel₁ =>
          split at hbecome
          · next hghost₁ =>
            obtain ⟨db₄, hg₁, hbecome⟩ := Option.bind_eq_some_iff.1 hbecome
            cases hbecome
            have hleft := hsel₁
            rw [← hdt, ← hname] at hleft
            obtain ⟨hid, hrow₁⟩ := row_of_select h (v := ⟨tent, true⟩) hmem hrem hleft
            have htype₁ : nodeType db₃ t₁.tupid = some .ghost := by
              rw [hid, nodeType_of_tupEntryAdd hrow₁, hghost₁]
            obtain ⟨hpost, hfile⟩ := post_ghostToFile htype₁ hg₁
            obtain ⟨E, hE, hempty⟩ := post_fileDone (.inl hfile) hchanged
            rw [hdb, hempty hfile] at hE
            exact hpost.step hE
          · cases hbecome
      rw [hok]
      refine ⟨cmdsKept_iff h hmem hrem hpost, fun hd => ?_⟩
      apply dirsKept_of_cond h hmem hrem hpost _ (hdok hd)
      intro d hd₀ hd'
      rcases hpost.newDir d hd' with hd₁ | hgen
      · exact hd₁
      · -- a generated directory after the removal was one before
        have hgen₀ := nodeType_of_fades (hrem.fades d) hgen (by decide)
        rw [hd₀] at hgen₀
        cases hgen₀

/-- A statement that keeps the types and the links, and takes nothing off the two lists. -/
structure Adds (db db' : Db) : Prop where
  nodeType : ∀ j, nodeType db' j = nodeType db j
  normalLink : db'.normalLink = db.normalLink
  modify : db.flags.modify ⊆ db'.flags.modify
  create : db.flags.create ⊆ db'.flags.create

theorem Adds.refl (db : Db) : Adds db db := ⟨fun _ => rfl, rfl, subset_rfl, subset_rfl⟩

theorem Adds.trans {db₁ db₂ : Db} (h : Adds db db₁) (h₁ : Adds db₁ db₂) : Adds db db₂ :=
  ⟨fun j => (h₁.nodeType j).trans (h.nodeType j), h₁.normalLink.trans h.normalLink,
    h.modify.trans h₁.modify, h.create.trans h₁.create⟩

theorem Grows.adds (h : Grows db db') : Adds db db' :=
  ⟨fun j => by unfold nodeType; rw [h.tupEntryAdd], h.normalLink, h.modify ▸ subset_rfl, h.create⟩

theorem recurseModifyDir_adds {dt : TupId} (h : recurseModifyDir fuel db dt = some db') :
    Adds db db' := by
  induction fuel generalizing db dt db' with
  | zero => cases h
  | succ fuel ih =>
    have key : ∀ (l : List TupEntry) (m m' : Db), l.foldlM (fun db he =>
        if he.type = .dir then recurseModifyDir fuel db he.tupid
        else
          let db := if he.type = .generated ∨ he.type = .file then db.addModify he.tupid else db
          some (tupDbMaybeAddConfigList (tupDbSetDependentFlags db he.tupid) he.tupid)) m =
          some m' → Adds m m' := by
      intro l
      induction l with
      | nil =>
        intro m m' hm
        cases hm
        exact .refl m
      | cons he l ihl =>
        intro m m' hm
        rw [List.foldlM_cons, Option.bind_eq_bind, Option.bind_eq_some_iff] at hm
        obtain ⟨m₁, hm₁, hm⟩ := hm
        refine Adds.trans ?_ (ihl _ _ hm)
        split at hm₁
        · exact ih hm₁
        · have hadd : Adds m (if he.type = .generated ∨ he.type = .file then m.addModify he.tupid
              else m) := by
            split
            · exact ⟨fun _ => rfl, rfl, Finset.subset_insert _ _, subset_rfl⟩
            · exact .refl m
          cases hm₁
          exact (hadd.trans (Grows.setDependentFlags _ _).adds).trans
            (Grows.maybeAddConfigList _ _).adds
    exact (Grows.addCreate db dt).adds.trans (key _ _ _ h)

theorem setName_adds {i newDt : TupId} {newName : Text}
    (h : tupDbSetName db i newName newDt = some db') : Adds db db' := by
  obtain ⟨tent, -, h⟩ := Option.bind_eq_some_iff.1 h
  split at h
  · cases h
    exact .refl _
  · split at h
    · cases h
    · cases h
      refine ⟨fun j => ?_, rfl, subset_rfl, subset_rfl⟩
      refine (Post.nodeType_updateNode db i j
        (f := fun t => { t with name := newName, dt := newDt }) fun _ => rfl).trans ?_
      split
      · next hji => rw [hji]; rfl
      · rfl

/-- What the removal of ghosts below a node of `S` does: only ghosts go, and whatever is no longer
led to was led to by one of them. -/
structure GhostsGone (S : Set TupId) (db db' : Db) : Prop where
  node : ∀ t ∈ db'.node, t ∈ db.node
  keeps : ∀ j type, nodeType db j = some type → type ≠ .ghost → nodeType db' j = some type
  links : ∀ a b, NormalAdj db' a b → NormalAdj db a b
  modify : db.flags.modify ⊆ db'.flags.modify
  create : db.flags.create ⊆ db'.flags.create
  lostCmd : ∀ a c, NormalAdj db a c → ¬ NormalAdj db' a c → nodeType db c = some .cmd →
    c ∈ db'.flags.modify
  lost : ∀ a b type, NormalAdj db a b → ¬ NormalAdj db' a b → nodeType db b = some type →
    type ≠ .ghost → a ∈ S

theorem GhostsGone.refl {S : Set TupId} (db : Db) : GhostsGone S db db :=
  ⟨fun _ ht => ht, fun _ _ hj _ => hj, fun _ _ hab => hab, subset_rfl, subset_rfl,
    fun _ _ hab hl => absurd hab hl, fun _ _ _ hab hl => absurd hab hl⟩

theorem GhostsGone.mono {S T : Set TupId} (h : GhostsGone S db db') (hST : S ⊆ T) :
    GhostsGone T db db' :=
  { h with lost := fun a b type hab hlost hb hne => hST (h.lost a b type hab hlost hb hne) }

theorem GhostsGone.trans {S : Set TupId} {db₁ db₂ : Db} (h : GhostsGone S db db₁)
    (h₁ : GhostsGone S db₁ db₂) : GhostsGone S db db₂ where
  node t ht := h.node t (h₁.node t ht)
  keeps j type hj hne := h₁.keeps j type (h.keeps j type hj hne) hne
  links a b hab := h.links a b (h₁.links a b hab)
  modify := h.modify.trans h₁.modify
  create := h.create.trans h₁.create
  lostCmd a c hac hlost hc := by
    by_cases hmid : NormalAdj db₁ a c
    · exact h₁.lostCmd a c hmid hlost (h.keeps c .cmd hc (by decide))
    · exact h₁.modify (h.lostCmd a c hac hmid hc)
  lost a b type hab hlost hb hne := by
    by_cases hmid : NormalAdj db₁ a b
    · exact h₁.lost a b type hmid hlost (h.keeps b type hb hne) hne
    · exact h.lost a b type hab hmid hb hne

/-- Taking a ghost out of the links. -/
theorem ghostsGone_unlink {S : Set TupId} {i : TupId} (hi : i ∈ S)
    (hghost : ∀ type, nodeType db i = some type → type = .ghost)
    (h : tupDbDeleteLinks (tupDbModifyCmdsByInput db i) i = some db') : GhostsGone S db db' := by
  obtain ⟨m, hgrow, rfl⟩ := tupDbDeleteLinks_eq h
  have hadj : ∀ a b, NormalAdj (deleteTableLinks m i) a b ↔ NormalAdj db a b ∧ a ≠ i ∧ b ≠ i := by
    intro a b
    have hm : NormalAdj m a b ↔ NormalAdj db a b := hgrow.normalAdj a b
    rw [normalAdj_deleteTableLinks, hm]
  have hstart : ∀ a b type, NormalAdj db a b → ¬ NormalAdj (deleteTableLinks m i) a b →
      nodeType db b = some type → type ≠ .ghost → a = i := by
    intro a b type hab hlost hb hne
    by_contra ha
    refine hlost ((hadj a b).2 ⟨hab, ha, ?_⟩)
    rintro rfl
    exact hne (hghost type hb)
  refine ⟨?_, ?_, fun a b hab => ((hadj a b).1 hab).1, ?_, hgrow.create, ?_, ?_⟩
  · intro t ht
    have ht : t ∈ m.node := ht
    rw [hgrow.node] at ht
    exact ht
  · intro j type hj _
    unfold nodeType at hj ⊢
    exact (congrArg _ (hgrow.tupEntryAdd j)).trans hj
  · intro c hc
    show c ∈ m.flags.modify
    rw [hgrow.modify]
    exact Finset.mem_union_left _ hc
  · intro a c hac hl hc
    obtain ⟨t, ht, hcmd⟩ := Option.map_eq_some_iff.1 hc
    rw [hstart a c .cmd hac hl hc (by decide)] at hac
    show c ∈ m.flags.modify
    rw [hgrow.modify]
    exact Finset.mem_union_right _ (mem_dependents.2 ⟨hac, t, ht, by simp [hcmd]⟩)
  · intro a b type hab hl hb hne
    rw [hstart a b type hab hl hb hne]
    exact hi

theorem ghostsGone_deleteNode {S : Set TupId} {i : TupId}
    (hghost : ∀ type, nodeType db i = some type → type = .ghost) :
    GhostsGone S db (deleteNode db i) := by
  refine ⟨fun t ht => (List.mem_filter.1 ht).1, ?_, fun _ _ hab => hab, subset_rfl, subset_rfl,
    fun _ _ hab hl => absurd hab hl, fun _ _ _ hab hl => absurd hab hl⟩
  intro j type hj hne
  have hji : j ≠ i := by
    rintro rfl
    exact hne (hghost type hj)
  unfold nodeType
  rw [tupEntryAdd_deleteNode, if_neg hji]
  exact hj

/-- The ghosts below a ghost go. The children are the ones of `db`; the rows of the database in
between are among those of `db₀`. -/
theorem recurseDeleteGhostTree_gone {db₀ : Db} (h : db₀.Tree) {i : TupId}
    (hsub : ∀ t ∈ db.node, t ∈ db₀.node)
    (hghost : ∀ type, nodeType db i = some type → type = .ghost)
    (hrun : recurseDeleteGhostTree fuel db i true = some db') :
    GhostsGone {j | Relation.ReflTransGen (ParentOf db₀) j i} db db' := by
  induction fuel generalizing db i db' with
  | zero => cases hrun
  | succ fuel ih =>
    have key : ∀ (l : List TupEntry), (∀ he ∈ l, he ∈ db₀.node ∧ he.dt = i) → ∀ m m' : Db,
        (∀ t ∈ m.node, t ∈ db₀.node) → l.foldlM (fun db he => if he.type ≠ .ghost then none
          else do
            let db ← recurseDeleteGhostTree fuel db he.tupid true
            return deleteNode db he.tupid) m = some m' →
        GhostsGone {j | Relation.ReflTransGen (ParentOf db₀) j i} m m' := by
      intro l
      induction l with
      | nil =>
        intro _ m m' _ hm
        cases hm
        exact .refl m
      | cons he l ihl =>
        intro hl m m' hm hfold
        rw [List.foldlM_cons, Option.bind_eq_bind, Option.bind_eq_some_iff] at hfold
        obtain ⟨m₁, hm₁, hfold⟩ := hfold
        obtain ⟨hmem, hdt⟩ := hl he (List.mem_cons_self ..)
        split at hm₁
        · cases hm₁
        · next hty =>
          obtain ⟨m₂, hm₂, hm₁⟩ := Option.bind_eq_some_iff.1 hm₁
          cases hm₁
          -- the row of a child is its row in `db₀`
          have hchild : ∀ n : Db, (∀ t ∈ n.node, t ∈ db₀.node) →
              ∀ type, nodeType n he.tupid = some type → type = .ghost := by
            intro n hn type htype
            obtain ⟨t, ht, rfl⟩ := Option.map_eq_some_iff.1 htype
            obtain ⟨htn, hid⟩ := mem_node_of_tupEntryAdd ht
            rw [h.eq_of_tupid (hn t htn) hmem hid]
            exact not_not.1 hty
          have hstep : Relation.ReflTransGen (ParentOf db₀) he.tupid i :=
            .single ⟨he, hmem, rfl, hdt⟩
          have hbelow := (ih hm (hchild m hm) hm₂).mono fun j hj => hj.trans hstep
          have hsub₂ : ∀ t ∈ m₂.node, t ∈ db₀.node := fun t ht => hm t (hbelow.node t ht)
          have hdel := ghostsGone_deleteNode
            (S := {j | Relation.ReflTransGen (ParentOf db₀) j i}) (hchild m₂ hsub₂)
          refine (hbelow.trans hdel).trans (ihl ?_ _ _ ?_ hfold)
          · exact fun t ht => hl t (List.mem_cons_of_mem _ ht)
          · exact fun t ht => hsub₂ t (hdel.node t ht)
    obtain ⟨m, hm, hrun⟩ := Option.bind_eq_some_iff.1 hrun
    have hunlink := ghostsGone_unlink (S := {j | Relation.ReflTransGen (ParentOf db₀) j i})
      .refl hghost hm
    refine hunlink.trans (key _ ?_ _ _ ?_ hrun)
    · intro he hhe
      obtain ⟨hmem, hdt⟩ := mem_getDirEntries.1 hhe
      exact ⟨hsub he hmem, hdt⟩
    · exact fun t ht => hsub t (hunlink.node t ht)

theorem changeNode_kept (h : db.Tree) {i newDt : TupId} {newName : Text}
    (hrun : tupDbChangeNode fuel db i newName newDt = some db') :
    CmdsKept db db' ∧ ((NodeCall.changeNode i newName newDt).DirsOk db → DirsKept db db') := by
  obtain ⟨db₁, hroom, hrun⟩ := Option.bind_eq_some_iff.1 hrun
  obtain ⟨db₂, hname, hrun⟩ := Option.bind_eq_some_iff.1 hrun
  have hadds := (setName_adds hname).trans (recurseModifyDir_adds hrun)
  have hlinks : ∀ a b, NormalAdj db' a b ↔ NormalAdj db₁ a b := by
    intro a b
    unfold NormalAdj
    rw [hadds.normalLink]
  unfold makeRoom at hroom
  split at hroom
  · next t hsel =>
    split at hroom
    · next hghost =>
      obtain ⟨m, hm, rfl⟩ := Option.map_eq_some_iff.1 hroom
      have hrow := h.tupEntryAdd_of_mem (mem_of_tupDbSelectTent hsel).1
      have hty : ∀ n : Db, (∀ u ∈ n.node, u ∈ db.node) →
          ∀ type, nodeType n t.tupid = some type → type = .ghost := by
        intro n hn type htype
        obtain ⟨u, hu, rfl⟩ := Option.map_eq_some_iff.1 htype
        obtain ⟨hun, hid⟩ := mem_node_of_tupEntryAdd hu
        rw [h.eq_of_tupid (hn u hun) (mem_of_tupDbSelectTent hsel).1 hid]
        exact hghost
      have htree := recurseDeleteGhostTree_gone h (fun _ hu => hu) (hty db fun _ hu => hu) hm
      have hgone := htree.trans (ghostsGone_deleteNode (hty m htree.node))
      constructor
      · intro x c hadj hlost hc _
        exact hadds.modify (hgone.lostCmd x c hadj (fun hx => hlost ((hlinks x c).2 hx)) hc)
      · intro hok x d hadj hlost hd _
        have hx := hgone.lost x d .dir hadj (fun hx => hlost ((hlinks x d).2 hx)) hd (by decide)
        exact hadds.create (hgone.create (hok t x d hsel hghost hx hadj hd))
    · cases hroom
  · cases hroom
    constructor
    · intro x c hadj hlost _ _
      exact absurd ((hlinks x c).2 hadj) hlost
    · intro _ x d hadj hlost _ _
      exact absurd ((hlinks x d).2 hadj) hlost

theorem exists_row_of_delIdType {i : TupId} {force b : Bool}
    (hrun : tupDelIdType fuel db i force = some (db', b)) : ∃ t, tupEntryAdd db i = some t := by
  cases fuel with
  | zero => cases hrun
  | succ fuel =>
    obtain ⟨t, ht, -⟩ := Option.bind_eq_some_iff.1 hrun
    exact ⟨t, ht⟩

/-- Every call keeps the commands and the directories under its condition, and the commands only
then. -/
theorem no_dependent_lost (h : db.Tree) {call : NodeCall} (hrun : call.run fuel db = some db') :
    (CmdsKept db db' ↔ call.CmdsOk db) ∧ (call.DirsOk db → DirsKept db db') := by
  cases call with
  | delIdType i force =>
    obtain ⟨⟨db₁, b⟩, hdel, rfl⟩ := Option.map_eq_some_iff.1 hrun
    obtain ⟨t, ht⟩ := exists_row_of_delIdType hdel
    obtain ⟨hmem, hrem⟩ := delIdType_removes h ht hdel
    obtain ⟨hcmds, hdirs⟩ := kept_of_removes h hmem hrem
    simpa [NodeCall.CmdsOk, NodeCall.DirsOk, NodeCall.visit, NodeCall.flagged, ht]
      using And.intro hcmds hdirs
  | fileMissing i =>
    obtain ⟨t, ht, hmissing⟩ := Option.bind_eq_some_iff.1 hrun
    obtain ⟨⟨db₁, b⟩, hdel, rfl⟩ := Option.map_eq_some_iff.1 hmissing
    rw [(mem_node_of_tupEntryAdd ht).2] at hdel
    obtain ⟨hmem, hrem⟩ := delIdType_removes h ht hdel
    obtain ⟨hcmds, hdirs⟩ := kept_of_removes h hmem hrem
    simpa [NodeCall.CmdsOk, NodeCall.DirsOk, NodeCall.visit, NodeCall.flagged, ht]
      using And.intro hcmds hdirs
  | fileModMtime dt file mtime force ignoreGenerated =>
    obtain ⟨⟨db₁, j, b⟩, hmod, rfl⟩ := Option.map_eq_some_iff.1 hrun
    exact fileModMtime_kept h hmod
  | createNode row =>
    obtain ⟨⟨db₁, t⟩, hcreate, rfl⟩ := Option.map_eq_some_iff.1 hrun
    exact createNode_kept h hcreate
  | changeNode i newName newDt =>
    obtain ⟨hcmds, hdirs⟩ := changeNode_kept h hrun
    refine ⟨iff_of_true hcmds ?_, hdirs⟩
    intro v hv
    cases hv

end

/-! ### A removed directory -/

/-- A node `x` of a type in the top directory, which a command reads. -/
def readBy (type : NodeType) : Db where
  node := [{ tupid := 1, dt := 0, type := .dir, name := ['.'] },
    { tupid := 2, dt := 1, type := type, name := ['x'] },
    { tupid := 3, dt := 1, type := .cmd, name := ['c'] }]
  normalLink := [⟨2, 3⟩]

theorem readBy_tree (type : NodeType) : (readBy type).Tree := by
  cases type <;> exact ⟨by decide, by decide, Int.toNat, by decide⟩

/-- The command that has looked for a directory is not run again when the directory goes. -/
theorem dependent_of_dir_lost : ¬ ∀ (fuel : ℕ) (db db' : Db) (call : NodeCall), db.Tree →
    call.run fuel db = some db' → CmdsKept db db' ∧ DirsKept db db' := by
  intro h
  obtain ⟨db', hrun⟩ : ∃ db', (NodeCall.fileMissing 2).run 1 (readBy .dir) = some db' := ⟨_, rfl⟩
  have hkept := (h 1 _ _ _ (readBy_tree .dir) hrun).1 2 3 (by decide)
  cases hrun
  exact absurd (hkept (by decide) (by decide) (by decide)) (by decide)

/-- The command that reads a file is run again when the file goes. -/
theorem no_dependent_lost_file : ∃ db', (NodeCall.fileMissing 2).run 1 (readBy .file) = some db' ∧
    (CmdsKept (readBy .file) db' ↔ (NodeCall.fileMissing 2).CmdsOk (readBy .file)) ∧
      ((NodeCall.fileMissing 2).DirsOk (readBy .file) → DirsKept (readBy .file) db') := by
  obtain ⟨db', hrun⟩ : ∃ db', (NodeCall.fileMissing 2).run 1 (readBy .file) = some db' := ⟨_, rfl⟩
  exact ⟨db', hrun, no_dependent_lost (readBy_tree .file) hrun⟩

end Metatup
