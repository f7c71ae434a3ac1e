import Metatup.Db.Referential
import Metatup.Lib.Keyed

/-!
# The nodes of files that come and go

What the database does with a file that has appeared, changed or gone, when nothing but a file or a
ghost has its name: the functions succeed, and they leave alone what is elsewhere.

* `Elsewhere`: what a function leaves alone that is about one place.
* `makeDirsNormal_total`: the walk up the directories ends.
* `fileDel_spec`, `fileMod_spec`: a file goes, a file appears or changes.
-/

namespace Metatup

/-- Where a node is: the name in a directory. -/
def TupEntry.place (t : TupEntry) : TupId × Text := (t.dt, t.name)

/-- The node is a file, or it is what is left of one. -/
def TupEntry.Plain (t : TupEntry) : Prop := t.type = .file ∨ t.type = .ghost

instance (t : TupEntry) : Decidable t.Plain := by
  unfold TupEntry.Plain
  infer_instance

instance (db : Db) (i : TupId) : Decidable (HasNode db i) := by
  unfold HasNode
  infer_instance

section

variable {db db' : Db} {dt i : TupId} {name : Text} {t : TupEntry}

theorem select_eq_some_iff (h : db.Tree) :
    tupDbSelectTent db dt name = some t ↔ t ∈ db.node ∧ t.place = (dt, name) := by
  constructor
  · intro hsel
    obtain ⟨hmem, hdt, hname⟩ := mem_of_tupDbSelectTent hsel
    exact ⟨hmem, Prod.ext hdt hname⟩
  · rintro ⟨hmem, hplace⟩
    obtain ⟨hdt, hname⟩ := Prod.ext_iff.1 hplace
    obtain ⟨u, hu⟩ : ∃ u, tupDbSelectTent db dt name = some u := by
      apply Option.isSome_iff_exists.1
      unfold tupDbSelectTent
      rw [List.find?_isSome]
      refine ⟨t, hmem, ?_⟩
      simp only [Bool.and_eq_true, decide_eq_true_eq]
      exact ⟨hdt, hname⟩
    obtain ⟨humem, hudt, huname⟩ := mem_of_tupDbSelectTent hu
    rw [hu, h.names u humem t hmem (hudt.trans hdt.symm) (huname.trans hname.symm)]

theorem select_eq_none_iff :
    tupDbSelectTent db dt name = none ↔ ∀ t ∈ db.node, t.place ≠ (dt, name) := by
  unfold tupDbSelectTent
  rw [List.find?_eq_none]
  apply forall₂_congr
  intro t _
  simp [TupEntry.place]

theorem Db.Tree.eq_of_place (h : db.Tree) {s t : TupEntry} (hs : s ∈ db.node) (ht : t ∈ db.node)
    (heq : s.place = t.place) : s = t :=
  h.names s hs t ht (Prod.ext_iff.1 heq).1 (Prod.ext_iff.1 heq).2

end

/-! ### Loops that succeed -/

/-- A loop whose steps succeed, and keep what lets them succeed, succeeds. -/
theorem exists_foldlM {σ β : Type} {f : σ → β → Option σ} {I : σ → Prop} {l : List β} {s : σ}
    (hs : I s) (hf : ∀ s, I s → ∀ b ∈ l, ∃ s', f s b = some s' ∧ I s') :
    ∃ s', l.foldlM f s = some s' ∧ I s' := by
  induction l generalizing s with
  | nil => exact ⟨s, rfl, hs⟩
  | cons b l ih =>
    obtain ⟨m, hm, hI⟩ := hf s hs b List.mem_cons_self
    obtain ⟨s', hs', hI'⟩ := ih hI fun s hs c hc => hf s hs c (List.mem_cons_of_mem b hc)
    refine ⟨s', ?_, hI'⟩
    rw [List.foldlM_cons, hm]
    exact hs'

/-! ### What is left alone -/

/-- The node is a directory, generated or not. -/
def IsFolder (db : Db) (i : TupId) : Prop :=
  nodeType db i = some .dir ∨ nodeType db i = some .generatedDir

instance (db : Db) (i : TupId) : Decidable (IsFolder db i) := by
  unfold IsFolder
  infer_instance

theorem IsFolder.hasNode {db : Db} {i : TupId} (h : IsFolder db i) : HasNode db i := by
  unfold HasNode
  rcases h with h | h
  all_goals
    obtain ⟨t, ht, -⟩ := Option.map_eq_some_iff.1 h
    rw [ht]
    rfl

/-- The generated directories. -/
def generatedDirs (db : Db) : ℕ := db.node.countP (·.type = .generatedDir)

/-- A function that is about the place `p` leaves the files and ghosts at other places alone, takes
flags from nobody, and links only from the node `cut`. -/
structure Elsewhere (p : TupId × Text) (cut : Set TupId) (db db' : Db) : Prop where
  rows : ∀ t, t.place ≠ p → t.Plain → (t ∈ db'.node ↔ t ∈ db.node)
  others : ∀ t' ∈ db'.node, t'.place ≠ p → ¬ t'.Plain →
    ∃ t ∈ db.node, t.place = t'.place ∧ ¬ t.Plain
  kinds : ∀ c type, type = .cmd ∨ type = .group ∨ type = .dir → nodeType db c = some type →
    nodeType db' c = some type
  folders : ∀ c, IsFolder db c → IsFolder db' c
  hasNode : ∀ c, HasNode db c → c ∉ cut → HasNode db' c
  modify : ∀ c ∈ db.flags.modify, c ∉ cut → c ∈ db'.flags.modify
  create : ∀ c ∈ db.flags.create, c ∉ cut → c ∈ db'.flags.create
  config : ∀ c ∈ db.flags.config, c ∉ cut → c ∈ db'.flags.config
  links : ∀ a b, NormalAdj db a b → a ∉ cut → b ∉ cut → NormalAdj db' a b
  dirs : generatedDirs db' ≤ generatedDirs db

namespace Elsewhere

variable {p : TupId × Text} {cut : Set TupId} {db db₁ db₂ : Db} {i : TupId}

theorem refl (p : TupId × Text) (cut : Set TupId) (db : Db) : Elsewhere p cut db db where
  rows _ _ _ := .rfl
  others t ht _ hplain := ⟨t, ht, rfl, hplain⟩
  kinds _ _ _ h := h
  folders _ h := h
  hasNode _ h _ := h
  modify _ h _ := h
  create _ h _ := h
  config _ h _ := h
  links _ _ h _ _ := h
  dirs := le_rfl

theorem trans (h : Elsewhere p cut db db₁) (h₁ : Elsewhere p cut db₁ db₂) :
    Elsewhere p cut db db₂ where
  rows t hp ht := (h₁.rows t hp ht).trans (h.rows t hp ht)
  others t₂ ht₂ hp hplain := by
    obtain ⟨t₁, ht₁, hplace, hplain₁⟩ := h₁.others t₂ ht₂ hp hplain
    obtain ⟨t, ht, hplace', hplain'⟩ := h.others t₁ ht₁ (hplace ▸ hp) hplain₁
    exact ⟨t, ht, hplace'.trans hplace, hplain'⟩
  kinds c type htype hc := h₁.kinds c type htype (h.kinds c type htype hc)
  folders c hc := h₁.folders c (h.folders c hc)
  hasNode c hc hcut := h₁.hasNode c (h.hasNode c hc hcut) hcut
  modify c hc hcut := h₁.modify c (h.modify c hc hcut) hcut
  create c hc hcut := h₁.create c (h.create c hc hcut) hcut
  config c hc hcut := h₁.config c (h.config c hc hcut) hcut
  links a b hl ha hb := h₁.links a b (h.links a b hl ha hb) ha hb
  dirs := h₁.dirs.trans h.dirs

theorem mono {cut' : Set TupId} (h : Elsewhere p cut db db₁) (hsub : cut ⊆ cut') :
    Elsewhere p cut' db db₁ where
  rows := h.rows
  others := h.others
  kinds := h.kinds
  folders := h.folders
  hasNode c hc hcut := h.hasNode c hc fun hmem => hcut (hsub hmem)
  modify c hc hcut := h.modify c hc fun hmem => hcut (hsub hmem)
  create c hc hcut := h.create c hc fun hmem => hcut (hsub hmem)
  config c hc hcut := h.config c hc fun hmem => hcut (hsub hmem)
  links a b hl ha hb := h.links a b hl (fun hmem => ha (hsub hmem)) fun hmem => hb (hsub hmem)
  dirs := h.dirs

/-- A statement about flags and ghosts that only adds. -/
theorem of_flags (hk : KeepsRows db db₁) (hmodify : db.flags.modify ⊆ db₁.flags.modify)
    (hcreate : db.flags.create ⊆ db₁.flags.create) (hconfig : db.flags.config ⊆ db₁.flags.config) :
    Elsewhere p cut db db₁ where
  rows t _ _ := by rw [hk.node]
  others t ht _ hplain := ⟨t, hk.node ▸ ht, rfl, hplain⟩
  kinds c type _ hc := by
    rw [nodeType, tupEntryAdd, hk.node]
    exact hc
  folders c hc := by
    unfold IsFolder nodeType tupEntryAdd
    rw [hk.node]
    exact hc
  hasNode c hc _ := (hk.hasNode c).2 hc
  modify c hc _ := hmodify hc
  create c hc _ := hcreate hc
  config c hc _ := hconfig hc
  links a b hl _ _ := by
    unfold NormalAdj
    rw [show db₁.normalLink = db.normalLink from hk.links .normal]
    exact hl
  dirs := by rw [generatedDirs, hk.node, generatedDirs]

theorem addCreate (db : Db) (i : TupId) : Elsewhere p cut db (db.addCreate i) :=
  of_flags (.addCreate db i) subset_rfl (Finset.subset_insert _ _) subset_rfl

theorem addModify (db : Db) (i : TupId) : Elsewhere p cut db (db.addModify i) :=
  of_flags (.addModify db i) (Finset.subset_insert _ _) subset_rfl subset_rfl

theorem addConfig (db : Db) (i : TupId) : Elsewhere p cut db (db.addConfig i) :=
  of_flags (.addConfig db i) subset_rfl subset_rfl (Finset.subset_insert _ _)

theorem setDependentFlags (db : Db) (i : TupId) : Elsewhere p cut db (tupDbSetDependentFlags db i) :=
  of_flags (.setDependentFlags db i) subset_rfl Finset.subset_union_left Finset.subset_union_left

theorem modifyCmdsByInput (db : Db) (i : TupId) : Elsewhere p cut db (tupDbModifyCmdsByInput db i) :=
  of_flags (.setFlags db _) Finset.subset_union_left subset_rfl subset_rfl

theorem ghostRoot (db : Db) (r : TentTree) : Elsewhere p cut db { db with ghostRoot := r } :=
  of_flags (.of_eq rfl rfl rfl) subset_rfl subset_rfl subset_rfl

theorem ite {c : Prop} [Decidable c] (h : Elsewhere p cut db db₁) (h₂ : Elsewhere p cut db db₂) :
    Elsewhere p cut db (if c then db₁ else db₂) := by
  split
  · exact h
  · exact h₂

theorem countP_update (l : List TupEntry) {f : TupEntry → TupEntry}
    (hf : ∀ t ∈ l, t.tupid = i → (f t).type = .generatedDir → t.type = .generatedDir) :
    (l.map fun t => if t.tupid = i then f t else t).countP (·.type = .generatedDir) ≤
      l.countP (·.type = .generatedDir) := by
  rw [List.countP_map]
  apply List.countP_mono_left
  intro t ht htype
  simp only [Function.comp, decide_eq_true_eq] at htype ⊢
  split at htype
  · next hid => exact hf t ht hid htype
  · exact htype

/-- The row of a node at `p` that is a file or a ghost is changed, or a generated directory becomes
a normal one. -/
theorem updateNode {f : TupEntry → TupEntry}
    (hf : ∀ t, (f t).tupid = t.tupid ∧ (f t).place = t.place)
    (hrow : ∀ t ∈ db.node, t.tupid = i →
      (t.place = p ∧ t.Plain ∧ (f t).type ≠ .generatedDir) ∨
        (t.type = .generatedDir ∧ (f t).type = .dir)) :
    Elsewhere p cut db (db.updateNode i f) where
  rows t hp ht := by
    constructor
    · intro hmem
      obtain ⟨s, hs, heq⟩ := List.mem_map.1 hmem
      by_cases hsi : s.tupid = i
      · rw [if_pos hsi] at heq
        subst heq
        rcases hrow s hs hsi with ⟨hplace, -⟩ | ⟨-, hdir⟩
        · exact absurd ((hf s).2.trans hplace) hp
        · rcases ht with ht | ht
          all_goals
            rw [hdir] at ht
            cases ht
      · rw [if_neg hsi] at heq
        exact heq ▸ hs
    · intro hmem
      refine List.mem_map.2 ⟨t, hmem, if_neg fun hti => ?_⟩
      rcases hrow t hmem hti with ⟨hplace, -⟩ | ⟨hdir, -⟩
      · exact hp hplace
      · rcases ht with ht | ht
        all_goals
          rw [hdir] at ht
          cases ht
  others t' ht' hp hplain := by
    obtain ⟨s, hs, rfl⟩ := List.mem_map.1 ht'
    by_cases hsi : s.tupid = i
    · simp only [if_pos hsi] at hp hplain ⊢
      refine ⟨s, hs, (hf s).2.symm, ?_⟩
      rcases hrow s hs hsi with ⟨hplace, -⟩ | ⟨hdir, -⟩
      · exact absurd ((hf s).2.trans hplace) hp
      · rintro (ht | ht)
        all_goals
          rw [hdir] at ht
          cases ht
    · simp only [if_neg hsi] at hp hplain ⊢
      exact ⟨s, hs, rfl, hplain⟩
  kinds c type htype hc := by
    unfold nodeType at hc ⊢
    rw [tupEntryAdd_updateNode db i c fun t => (hf t).1]
    by_cases hci : c = i
    · rw [if_pos hci, Option.map_map]
      obtain ⟨t, ht, rfl⟩ := Option.map_eq_some_iff.1 hc
      obtain ⟨hmem, hid⟩ := mem_node_of_tupEntryAdd ht
      rcases hrow t hmem (hid.trans hci) with ⟨-, hplain, -⟩ | ⟨hdir, -⟩
      · rcases hplain with hplain | hplain
        all_goals
          rw [hplain] at htype
          simp at htype
      · rw [hdir] at htype
        simp at htype
    · rwa [if_neg hci]
  folders c hc := by
    unfold IsFolder nodeType at hc ⊢
    rw [tupEntryAdd_updateNode db i c fun t => (hf t).1]
    by_cases hci : c = i
    · obtain ⟨t, ht, htype⟩ : ∃ t, tupEntryAdd db c = some t ∧ (t.type = .dir ∨ t.type = .generatedDir) := by
        rcases hc with hc | hc
        all_goals
          obtain ⟨t, ht, htype⟩ := Option.map_eq_some_iff.1 hc
          exact ⟨t, ht, by simp [htype]⟩
      obtain ⟨hmem, hid⟩ := mem_node_of_tupEntryAdd ht
      rw [if_pos hci, ht]
      rcases hrow t hmem (hid.trans hci) with ⟨-, hplain, -⟩ | ⟨-, hdir⟩
      · rcases hplain with hplain | hplain
        all_goals
          rw [hplain] at htype
          simp at htype
      · exact .inl (congrArg some hdir)
    · rwa [if_neg hci]
  hasNode c hc _ := (hasNode_updateNode fun t => (hf t).1).2 hc
  modify _ hc _ := hc
  create _ hc _ := hc
  config _ hc _ := hc
  links _ _ hl _ _ := hl
  dirs := by
    apply countP_update
    intro t ht hti htype
    rcases hrow t ht hti with ⟨-, -, hne⟩ | ⟨hdir, -⟩
    · exact absurd htype hne
    · exact hdir

theorem nodeType_of_append {tent : TupEntry} {c : TupId} {type : NodeType}
    (hc : nodeType db c = some type) : nodeType { db with node := db.node ++ [tent] } c = some type := by
  obtain ⟨t, ht, rfl⟩ := Option.map_eq_some_iff.1 hc
  have ht' : (db.node ++ [tent]).find? (·.tupid = c) = some t := by
    rw [List.find?_append]
    exact Option.or_eq_some_iff.2 (.inl ht)
  rw [nodeType, tupEntryAdd, ht']
  rfl

/-- A new row at `p`. -/
theorem insert {tent : TupEntry} (hid : tent.tupid = newNodeId db) (hplace : tent.place = p)
    (htype : tent.type ≠ .generatedDir) :
    Elsewhere p cut db { db with node := db.node ++ [tent] } where
  rows t hp _ := by
    rw [List.mem_append, List.mem_singleton, or_iff_left]
    rintro rfl
    exact hp hplace
  others t ht hp hplain := by
    rcases List.mem_append.1 ht with ht | ht
    · exact ⟨t, ht, rfl, hplain⟩
    · rw [List.mem_singleton.1 ht] at hp
      exact absurd hplace hp
  kinds c type _ hc := nodeType_of_append hc
  folders c hc := hc.imp nodeType_of_append nodeType_of_append
  hasNode c hc _ := by
    obtain ⟨t, ht, rfl⟩ := hasNode_iff.1 hc
    exact hasNode_iff.2 ⟨t, List.mem_append_left _ ht, rfl⟩
  modify _ hc _ := hc
  create _ hc _ := hc
  config _ hc _ := hc
  links _ _ hl _ _ := hl
  dirs := by
    rw [generatedDirs, List.countP_append, List.countP_singleton, if_neg (by simpa using htype)]
    exact le_rfl

/-- The row of a file or a ghost at `p` is removed. -/
theorem deleteNode {t : TupEntry} (ht : tupEntryAdd db i = some t) (hplace : t.place = p)
    (hplain : t.Plain) (hnodup : (db.node.map TupEntry.tupid).Nodup) (hcut : i ∈ cut) :
    Elsewhere p cut db (deleteNode db i) where
  rows u hp _ := by
    refine List.mem_filter.trans (and_iff_left_of_imp fun hu => ?_)
    rw [decide_eq_true_eq]
    rintro rfl
    obtain ⟨hmem, hid⟩ := mem_node_of_tupEntryAdd ht
    exact hp (List.inj_on_of_nodup_map hnodup hu hmem hid.symm ▸ hplace)
  others u hu _ hu' := ⟨u, (List.mem_filter.1 hu).1, rfl, hu'⟩
  kinds c type htype hc := by
    unfold nodeType at hc ⊢
    rw [tupEntryAdd_deleteNode]
    by_cases hci : c = i
    · rw [hci, ht] at hc
      cases hc
      rcases hplain with hplain | hplain
      all_goals
        rw [hplain] at htype
        simp at htype
    · rwa [if_neg hci]
  folders c hc := by
    unfold IsFolder nodeType at hc ⊢
    rw [tupEntryAdd_deleteNode]
    by_cases hci : c = i
    · rw [hci, ht] at hc
      rcases hc with hc | hc
      all_goals
        rcases hplain with hplain | hplain
        all_goals
          rw [Option.map_some, hplain] at hc
          cases hc
    · rwa [if_neg hci]
  hasNode c hc hne := hasNode_deleteNode.2 ⟨fun h => hne (h ▸ hcut), hc⟩
  modify _ hc _ := hc
  create _ hc _ := hc
  config _ hc _ := hc
  links _ _ hl _ _ := hl
  dirs := List.Sublist.countP_le List.filter_sublist

/-- The links of the node `i` are dropped. -/
theorem deleteTableLinks (hcut : i ∈ cut) : Elsewhere p cut db (deleteTableLinks db i) where
  rows _ _ _ := .rfl
  others t ht _ hplain := ⟨t, ht, rfl, hplain⟩
  kinds _ _ _ h := h
  folders _ h := h
  hasNode _ h _ := h
  modify _ h _ := h
  create _ h _ := h
  config _ h _ := h
  links a b hl ha hb := by
    refine List.mem_filter.2 ⟨hl, ?_⟩
    simp only [Bool.and_eq_true, decide_eq_true_eq]
    exact ⟨fun h => ha (h ▸ hcut), fun h => hb (h ▸ hcut)⟩
  dirs := le_rfl

/-- The flags of the node `i` are dropped. -/
theorem unflagAll (hcut : i ∈ cut) : Elsewhere p cut db (db.setFlags (unflagAll db.flags i)) where
  rows _ _ _ := .rfl
  others t ht _ hplain := ⟨t, ht, rfl, hplain⟩
  kinds _ _ _ h := h
  folders _ h := h
  hasNode _ h _ := h
  modify _ h hne := Finset.mem_erase.2 ⟨fun hci => hne (hci ▸ hcut), h⟩
  create _ h hne := Finset.mem_erase.2 ⟨fun hci => hne (hci ▸ hcut), h⟩
  config _ h hne := Finset.mem_erase.2 ⟨fun hci => hne (hci ▸ hcut), h⟩
  links _ _ h _ _ := h
  dirs := le_rfl

end Elsewhere

/-! ### A file goes -/

section

variable {db db' : Db} {i : TupId} {t : TupEntry}

theorem tupEntryAdd_of_hasNode (h : HasNode db i) : ∃ t, tupEntryAdd db i = some t :=
  Option.isSome_iff_exists.1 h

/-- A loop that puts nodes into `ghost_root`. -/
theorem addGhostTree_loop {l : List TupEntry} :
    ∃ r, l.foldl tupEntryAddGhostTree db = { db with ghostRoot := r } := by
  induction l generalizing db with
  | nil => exact ⟨db.ghostRoot, rfl⟩
  | cons t l ih =>
    rw [List.foldl_cons, tupEntryAddGhostTree_eq]
    exact ih

theorem addGhostChecks_total (h : db.Joined) (i : TupId) :
    ∃ r, addGhostChecks db i = some { db with ghostRoot := r } := by
  have hloop : ∃ m, addGhostChecks db i = some m ∧ ∃ r, m = { db with ghostRoot := r } := by
    apply exists_foldlM ⟨db.ghostRoot, rfl⟩
    rintro m ⟨r, rfl⟩ j hj
    obtain ⟨l, hl, rfl⟩ := List.mem_map.1 hj
    obtain ⟨t, ht⟩ := tupEntryAdd_of_hasNode (h.links .normal l (List.mem_filter.1 hl).1).1
    refine ⟨tupEntryAddGhostTree { db with ghostRoot := r } t, ?_, ?_⟩
    · rw [show tupEntryAdd { db with ghostRoot := r } l.fromId = some t from ht]
      rfl
    · rw [tupEntryAddGhostTree_eq]
      exact ⟨_, rfl⟩
  obtain ⟨m, hm, r, rfl⟩ := hloop
  exact ⟨r, hm⟩

theorem getOutputs_total (h : db.Joined) (i : TupId) : ∃ tents, getOutputs db i = some tents := by
  have key : ∀ l : List TupId, (∀ j ∈ l, HasNode db j) →
      ∃ tents, l.mapM (tupEntryAdd db) = some tents := by
    intro l hl
    induction l with
    | nil => exact ⟨[], rfl⟩
    | cons j l ih =>
      obtain ⟨t, ht⟩ := tupEntryAdd_of_hasNode (hl j List.mem_cons_self)
      obtain ⟨tents, htents⟩ := ih fun k hk => hl k (List.mem_cons_of_mem j hk)
      refine ⟨t :: tents, ?_⟩
      rw [List.mapM_cons, ht, htents]
      rfl
  apply key
  intro j hj
  obtain ⟨l, hl, rfl⟩ := List.mem_map.1 hj
  exact (h.links .normal l (List.mem_filter.1 hl).1).2

/-- The links of a node that is no group are dropped, and nodes put into `ghost_root`. -/
theorem tupDbDeleteLinks_total (h : db.Joined) (ht : tupEntryAdd db i = some t)
    (htype : t.type ≠ .group) :
    ∃ r, tupDbDeleteLinks db i = some (deleteTableLinks { db with ghostRoot := r } i) := by
  obtain ⟨r, hr⟩ := addGhostChecks_total h i
  obtain ⟨tents, htents⟩ := getOutputs_total h i
  obtain ⟨r', hr'⟩ := @addGhostTree_loop { db with ghostRoot := r } tents
  refine ⟨r', ?_⟩
  unfold tupDbDeleteLinks
  rw [hr]
  have hgroup : addGroupAndExclusionChecks { db with ghostRoot := r } i =
      some { db with ghostRoot := r' } := by
    unfold addGroupAndExclusionChecks
    rw [show getOutputs { db with ghostRoot := r } i = some tents from htents]
    exact congrArg some hr'
  have husers : flagGroupUsers { db with ghostRoot := r' } i = some { db with ghostRoot := r' } := by
    unfold flagGroupUsers
    rw [show tupEntryAdd { db with ghostRoot := r' } i = some t from ht]
    exact if_neg htype
  simp only [Option.bind_eq_bind, Option.bind_some, hgroup, husers]
  rfl

theorem checkSrcGhost_total {srcid : TupId} (hs : 0 ≤ srcid → HasNode db srcid) :
    ∃ r, checkSrcGhost db srcid = some { db with ghostRoot := r } := by
  unfold checkSrcGhost
  split
  · next hpos =>
    obtain ⟨t, ht⟩ := tupEntryAdd_of_hasNode (hs hpos)
    refine ⟨(tupEntryAddGhostTree db t).ghostRoot, ?_⟩
    rw [ht, ← tupEntryAddGhostTree_eq]
    rfl
  · exact ⟨db.ghostRoot, rfl⟩

/-- The row of a file goes, or becomes one of a ghost. -/
theorem tupDbDeleteNode_file {cut : Set TupId} (hnodup : (db.node.map TupEntry.tupid).Nodup)
    (ht : tupEntryAdd db i = some t) (hfile : t.type = .file) (hdt : HasNode db t.dt)
    (hsrc : 0 ≤ t.srcid → HasNode db t.srcid) (hcut : i ∈ cut) :
    ∃ db', tupDbDeleteNode db i = some db' ∧ Elsewhere t.place cut db db' ∧
      ∀ t' ∈ db'.node, t'.tupid = i → t'.type = .ghost := by
  obtain ⟨hmem, hid⟩ := mem_node_of_tupEntryAdd ht
  obtain ⟨parent, hparent⟩ := tupEntryAdd_of_hasNode hdt
  obtain ⟨r, hr⟩ := checkSrcGhost_total hsrc
  have hone : ∀ u ∈ db.node, u.tupid = i → u = t := fun u hu hui =>
    List.inj_on_of_nodup_map hnodup hu hmem (hui.trans hid.symm)
  have hroot : Elsewhere t.place cut db { db with ghostRoot := r } := .ghostRoot db r
  unfold tupDbDeleteNode
  simp only [ht, hparent, hr, Option.bind_eq_bind, Option.bind_some]
  split
  · have hdir : ¬ t.type = .dir := by rw [hfile]; decide
    refine ⟨_, rfl, ?_, ?_⟩
    · rw [if_neg hdir]
      have htype : Elsewhere t.place cut { db with ghostRoot := r }
          (tupDbSetType { db with ghostRoot := r } i .ghost) := by
        refine .updateNode (fun _ => ⟨rfl, rfl⟩) ?_
        intro u hu hui
        obtain rfl := hone u hu hui
        exact .inl ⟨rfl, .inl hfile, (by decide : NodeType.ghost ≠ .generatedDir)⟩
      refine (hroot.trans htype).trans (.updateNode (fun _ => ⟨rfl, rfl⟩) ?_)
      intro u hu hui
      obtain ⟨w, hw, rfl⟩ := List.mem_map.1 hu
      by_cases hwi : w.tupid = i
      · rw [if_pos hwi]
        obtain rfl := hone w hw hwi
        exact .inl ⟨rfl, .inr rfl, (by decide : NodeType.ghost ≠ .generatedDir)⟩
      · rw [if_neg hwi] at hui
        exact absurd hui hwi
    · intro t' ht' hti
      obtain ⟨u, hu, rfl⟩ := List.mem_map.1 ht'
      obtain ⟨w, hw, rfl⟩ := List.mem_map.1 hu
      by_cases hwi : w.tupid = i
      · simp [hwi]
      · simp only [if_neg hwi] at hti
        exact absurd hti hwi
  · refine ⟨_, rfl, ?_, ?_⟩
    · have hdel : Elsewhere t.place cut { db with ghostRoot := r }
          (deleteNode { db with ghostRoot := r } i) := .deleteNode ht rfl (.inl hfile) hnodup hcut
      rw [tupEntryAddGhostTree_eq]
      exact (hroot.trans hdel).trans (.ghostRoot _ _)
    · intro t' ht' hti
      rw [tupEntryAddGhostTree_eq] at ht'
      exact absurd hti (by simpa using (List.mem_filter.1 ht').2)

/-- The dependents that a node has in `db₀` have been flagged. -/
structure Noted (db₀ : Db) (i : TupId) (db : Db) : Prop where
  cmds : ∀ c, NormalAdj db₀ i c → nodeType db₀ c = some .cmd ∨ nodeType db₀ c = some .group →
    c ∈ db.flags.modify
  dirs : ∀ d, NormalAdj db₀ i d → nodeType db₀ d = some .dir → d ∈ db.flags.create

/-- A node that is no file is not the one that is cut. -/
theorem not_cut_of_kind (ht : tupEntryAdd db i = some t) (hfile : t.type = .file) {c : TupId}
    {type : NodeType} (hc : nodeType db c = some type) (hne : type ≠ .file) : c ∉ ({i} : Set TupId) := by
  rintro rfl
  rw [nodeType_of_tupEntryAdd ht, hfile] at hc
  exact hne (Option.some.inj hc).symm

theorem flagDependents_file (db : Db) (hfile : t.type = .file) :
    Noted db t.tupid (flagDependents db t false) ∧
      ∀ p cut, Elsewhere p cut db (flagDependents db t false) := by
  have heq : flagDependents db t false = (tupDbModifyCmdsByInput (tupDbSetDependentFlags db t.tupid)
      t.tupid).addCreate t.dt := by
    simp [flagDependents, hfile]
  rw [heq]
  constructor
  · constructor
    · intro c hl hc
      refine Finset.mem_union_right _ (mem_dependents.2 ⟨hl, ?_⟩)
      rcases hc with hc | hc
      all_goals
        obtain ⟨u, hu, htype⟩ := Option.map_eq_some_iff.1 hc
        exact ⟨u, hu, by simp [htype]⟩
    · intro d hl hd
      obtain ⟨u, hu, htype⟩ := Option.map_eq_some_iff.1 hd
      refine Finset.mem_insert_of_mem (Finset.mem_union_right _ (mem_dependents.2 ⟨hl, u, hu, ?_⟩))
      simp [htype]
  · intro p cut
    exact ((Elsewhere.setDependentFlags db _).trans (.modifyCmdsByInput _ _)).trans (.addCreate _ _)

/-- A file is removed. -/
theorem flagAndDelete_file (h : db.Sound) (ht : t ∈ db.node) (hfile : t.type = .file)
    (hdt : HasNode db t.dt) : ∃ db', flagAndDelete db t false = some db' ∧
      Elsewhere t.place {t.tupid} db db' ∧ Noted db t.tupid db' ∧
        ∀ t' ∈ db'.node, t'.tupid = t.tupid → t'.type = .ghost := by
  have hrow := h.tree.tupEntryAdd_of_mem ht
  obtain ⟨hnoted, hflag⟩ := flagDependents_file db hfile
  have hk := KeepsRows.flagDependents db t false
  let m := (flagDependents db t false).setFlags (unflagAll (flagDependents db t false).flags t.tupid)
  have hkm : KeepsRows db m := hk.trans (.setFlags _ _)
  have hrefm : m.Referential := h.referential.of_keepsRows hkm
  have hrowm : tupEntryAdd m t.tupid = some t := by
    unfold tupEntryAdd
    rw [hkm.node]
    exact hrow
  obtain ⟨r, hr⟩ := tupDbDeleteLinks_total hrefm.toJoined hrowm (by rw [hfile]; decide)
  let m' := deleteTableLinks { m with ghostRoot := r } t.tupid
  have hnodem : m'.node = db.node := hkm.node
  have hrowm' : tupEntryAdd m' t.tupid = some t := hrowm
  have hhas : ∀ k, HasNode db k → HasNode m' k := by
    intro k hkn
    rw [hasNode_iff] at hkn ⊢
    rwa [hnodem]
  obtain ⟨db', hrun, hels, hghost⟩ := @tupDbDeleteNode_file m' t.tupid t {t.tupid}
    (by rw [hnodem]; exact h.tree.nodup) hrowm' hfile (hhas _ hdt)
    (fun hpos => hhas _ (h.referential.srcid t ht hpos)) (Set.mem_singleton _)
  have hlater : Elsewhere t.place {t.tupid} (flagDependents db t false) db' :=
    (((Elsewhere.unflagAll (Set.mem_singleton _)).trans (.ghostRoot _ r)).trans
      (.deleteTableLinks (Set.mem_singleton _))).trans hels
  refine ⟨db', ?_, (hflag _ _).trans hlater, ⟨?_, ?_⟩, hghost⟩
  · unfold flagAndDelete deleteNameFile
    rw [show tupDbDeleteLinks m t.tupid = some m' from hr]
    exact hrun
  · intro c hl hc
    refine hlater.modify c (hnoted.cmds c hl hc) ?_
    rcases hc with hc | hc
    · exact not_cut_of_kind hrow hfile hc (by decide)
    · exact not_cut_of_kind hrow hfile hc (by decide)
  · intro d hl hd
    exact hlater.create d (hnoted.dirs d hl hd) (not_cut_of_kind hrow hfile hd (by decide))

/-- What is left of a `tup.config` that goes, with its node in the config list. -/
def ConfigNoted (i : TupId) (p : TupId × Text) (db : Db) : Prop :=
  p.2 = tupConfig ∧ (∃ t ∈ db.node, t.place = p ∧ t.tupid = i) ∧ i ∈ db.flags.config

/-- The removal of a file or a ghost. -/
theorem delIdType_plain (h : db.Sound) (ht : t ∈ db.node) (hplain : t.Plain) (hdt : HasNode db t.dt)
    (fuel : ℕ) : ∃ db' b, tupDelIdType (fuel + 1) db t.tupid false = some (db', b) ∧ db'.Sound ∧
      Elsewhere t.place {c | t.type = .file ∧ c = t.tupid} db db' ∧
      (∀ t' ∈ db'.node, t'.place = t.place → t'.type = .ghost) ∧
      (t.name = tupConfig → ConfigNoted t.tupid t.place db') ∧
      (t.type = .file → t.name ≠ tupConfig → Noted db t.tupid db') := by
  have hrow := h.tree.tupEntryAdd_of_mem ht
  have hrun : ∃ db' b, tupDelIdType (fuel + 1) db t.tupid false = some (db', b) ∧
      Elsewhere t.place {c | t.type = .file ∧ c = t.tupid} db db' ∧
      (∀ t' ∈ db'.node, t'.tupid = t.tupid → t'.type = .ghost) ∧
      (t.name = tupConfig → ConfigNoted t.tupid t.place db') ∧
      (t.type = .file → t.name ≠ tupConfig → Noted db t.tupid db') := by
    unfold tupDelIdType
    simp only [hrow, Option.bind_eq_bind, Option.bind_some]
    by_cases hconfig : t.name = tupConfig
    · -- the node becomes a ghost and keeps its links
      have hcheck : checkRmTupConfig db t =
          ((tupDbSetType db t.tupid .ghost).addConfig t.tupid, true) := if_pos hconfig
      rw [hcheck]
      have hghost : ∀ t' ∈ (tupDbSetType db t.tupid .ghost).node, t'.tupid = t.tupid →
          t'.type = .ghost := by
        intro t' ht' hid
        obtain ⟨u, hu, rfl⟩ := List.mem_map.1 ht'
        by_cases hui : u.tupid = t.tupid
        · simp [hui]
        · simp only [if_neg hui] at hid
          exact absurd hid hui
      have hupdate : Elsewhere t.place {c | t.type = .file ∧ c = t.tupid} db
          (tupDbSetType db t.tupid .ghost) := by
        refine .updateNode (fun _ => ⟨rfl, rfl⟩) ?_
        intro u hu hid
        obtain rfl := h.tree.eq_of_tupid hu ht hid
        exact .inl ⟨rfl, hplain, (by decide : NodeType.ghost ≠ .generatedDir)⟩
      refine ⟨_, _, rfl, hupdate.trans (.addConfig _ _), hghost,
        fun _ => ⟨hconfig, ?_, ?_⟩, fun _ hne => absurd hconfig hne⟩
      · exact ⟨_, List.mem_map_of_mem ht, by rw [if_pos rfl]; rfl, by rw [if_pos rfl]⟩
      · exact Finset.mem_insert_self _ _
    · have hcheck : checkRmTupConfig db t = (db, false) := if_neg hconfig
      rw [hcheck]
      rcases hplain with hfile | hghost
      · obtain ⟨db', hdel, hels, hnoted, hleft⟩ := flagAndDelete_file h ht hfile hdt
        rw [hfile]
        refine ⟨db', true, ?_, hels.mono ?_, hleft, fun hc => absurd hc hconfig, fun _ _ => hnoted⟩
        · simp only [hdel]
          rfl
        · rintro c rfl
          exact ⟨rfl, rfl⟩
      · rw [hghost]
        refine ⟨db, false, rfl, .refl _ _ _, ?_, fun hc => absurd hc hconfig, ?_⟩
        · intro t' ht' hid
          rw [h.tree.eq_of_tupid ht' ht hid]
          exact hghost
        · intro hfile
          cases hfile
  obtain ⟨db', b, hdel, hels, hleft, hnoted⟩ := hrun
  have hshrinks := removing_tupDelIdType _ _ _ _ _ _ hdel
  refine ⟨db', b, hdel, h.shrinks hshrinks, hels, ?_, hnoted⟩
  intro t' ht' hplace
  obtain ⟨u, hu, hid, hudt, huname⟩ := hshrinks.place t' ht'
  have hut : u = t := by
    apply h.tree.eq_of_place hu ht
    rw [← hplace]
    exact Prod.ext hudt huname
  exact hleft t' ht' (by rw [← hid, hut])

end

/-! ### A file appears or changes -/

section

variable {db db' : Db} {p : TupId × Text} {fuel : ℕ} {mtime : Int × Int}

/-- With a generated directory less there is one less to walk over. -/
theorem generatedDirs_setType {dt : TupId} {dtent : TupEntry} (ht : tupEntryAdd db dt = some dtent)
    (htype : dtent.type = .generatedDir) :
    generatedDirs (tupDbSetType db dt .dir) < generatedDirs db := by
  have key : ∀ l : List TupEntry, dtent ∈ l →
      (l.map fun t => if t.tupid = dt then { t with type := .dir } else t).countP
        (·.type = .generatedDir) < l.countP (·.type = .generatedDir) := by
    intro l
    have hle : ∀ l : List TupEntry,
        (l.map fun t => if t.tupid = dt then { t with type := .dir } else t).countP
          (·.type = .generatedDir) ≤ l.countP (·.type = .generatedDir) := by
      intro l
      apply Elsewhere.countP_update
      intro t _ _ hne
      cases hne
    induction l with
    | nil => exact fun hmem => absurd hmem List.not_mem_nil
    | cons t l ih =>
      intro hmem
      rw [List.map_cons, List.countP_cons, List.countP_cons]
      obtain ⟨-, hid⟩ := mem_node_of_tupEntryAdd ht
      rcases List.mem_cons.1 hmem with rfl | hmem
      · have hrest := hle l
        simp only [hid, htype, reduceCtorEq, decide_true, decide_false, if_true, Bool.false_eq_true,
          if_false]
        omega
      · have hrest := ih hmem
        by_cases hti : t.tupid = dt
        · simp only [if_pos hti, reduceCtorEq, decide_false, Bool.false_eq_true, if_false]
          omega
        · simp only [if_neg hti]
          omega
  exact key db.node (mem_node_of_tupEntryAdd ht).1

/-- The walk up the directories ends, and leaves everything but directories alone. -/
theorem makeDirsNormal_total (hnodup : (db.node.map TupEntry.tupid).Nodup) (dt : TupId)
    (hfuel : generatedDirs db < fuel) : ∃ db', makeDirsNormal fuel db dt = some db' ∧ ∀ p cut, Elsewhere p cut db db' := by
  induction fuel generalizing db dt with
  | zero => omega
  | succ fuel ih =>
    unfold makeDirsNormal
    rcases hrow : tupEntryAdd db dt with _ | dtent
    · exact ⟨db, rfl, fun p cut => .refl p cut db⟩
    · by_cases htype : dtent.type = .generatedDir
      · simp only [if_pos htype]
        have hlt := generatedDirs_setType hrow htype
        let m : Db := { tupDbSetType db dt .dir with
          ghostRoot := tentTreeRemove (tupDbSetType db dt .dir).ghostRoot dt }
        have hltm : generatedDirs m < fuel := by
          have heq : generatedDirs m = generatedDirs (tupDbSetType db dt .dir) := rfl
          omega
        have hnodupm : (m.node.map TupEntry.tupid).Nodup := by
          rw [show m.node = (tupDbSetType db dt .dir).node from rfl, map_tupid_setType]
          exact hnodup
        obtain ⟨db', hrun, hels⟩ := ih hnodupm dtent.dt hltm
        refine ⟨db', hrun, fun p cut => ?_⟩
        have hset : Elsewhere p cut db (tupDbSetType db dt .dir) := by
          refine .updateNode (fun _ => ⟨rfl, rfl⟩) ?_
          intro t ht hid
          obtain ⟨hmem, hdtid⟩ := mem_node_of_tupEntryAdd hrow
          rw [List.inj_on_of_nodup_map hnodup ht hmem (hid.trans hdtid.symm)]
          exact .inr ⟨htype, rfl⟩
        exact (hset.trans (.ghostRoot _ _)).trans (hels p cut)
      · simp only [if_neg htype]
        split
        · exact ⟨_, rfl, fun p cut => .ite (.addCreate _ _) (.refl _ _ _)⟩
        · exact ⟨db, rfl, fun p cut => .refl p cut db⟩

/-- What a file's node is like after the file has been looked at: it is a file, it is the node that
was there, and it is in the modify list if it was a ghost or the look was forced. -/
def FileSeen (force : Bool) (p : TupId × Text) (db db' : Db) : Prop :=
  ∃ t ∈ db'.node, t.place = p ∧ t.type = .file ∧ ∀ t₀ ∈ db.node, t₀.place = p →
    t.tupid = t₀.tupid ∧ (force = true ∨ t₀.type = .ghost → t.tupid ∈ db'.flags.modify)

theorem elsewhere_fileModified (db : Db) (i dt : TupId) (file : Text) (p : TupId × Text)
    (cut : Set TupId) : Elsewhere p cut db (fileModified db i dt file) := by
  unfold fileModified
  have hconfig : Elsewhere p cut db (if file = tupConfig then db.addConfig i else db) :=
    .ite (.addConfig _ _) (.refl _ _ _)
  exact hconfig.trans (.ite (.addCreate _ _) (.refl _ _ _))

theorem node_fileModified (db : Db) (i dt : TupId) (file : Text) :
    (fileModified db i dt file).node = db.node := (keepsRows_fileModified db i dt file).node

/-- A new file gets a node. -/
theorem createNameFile_total (h : db.Sound) (hdt : HasNode db p.1)
    (hfree : ∀ t ∈ db.node, t.place ≠ p) (hfuel : generatedDirs db < fuel) :
    ∃ db' t, createNameFile fuel db p.1 p.2 mtime = some (db', t) ∧ db'.Sound ∧
      Elsewhere p ∅ db db' ∧ t ∈ db'.node ∧ t.place = p ∧ t.type = .file := by
  let tent : TupEntry :=
    { tupid := newNodeId db, dt := p.1, type := .file, name := p.2, mtime := mtime }
  let m : Db := { db with node := db.node ++ [tent] }
  have hinsert : tupDbNodeInsertTentDisplay db
      { tupid := 0, dt := p.1, type := .file, name := p.2, mtime := mtime } = some (m, tent) := by
    unfold tupDbNodeInsertTentDisplay
    rw [select_eq_none_iff.2 hfree]
    rfl
  have hm : Elsewhere p ∅ db m := .insert rfl rfl (by decide : NodeType.file ≠ .generatedDir)
  have hsound : m.Sound := by
    refine (h.nodeInsert hdt ?_ hinsert).1
    intro hpos
    exact absurd hpos (by decide : ¬ (0 : TupId) ≤ -1)
  have hdirs : generatedDirs (m.addCreate p.1) < fuel :=
    lt_of_le_of_lt hm.dirs hfuel
  obtain ⟨db', hrun, hels⟩ := @makeDirsNormal_total (m.addCreate p.1) fuel hsound.tree.nodup p.1 hdirs
  have hcreate : createNameFile fuel db p.1 p.2 mtime = some (db', tent) := by
    unfold createNameFile
    rw [hinsert]
    simp only [Option.bind_eq_bind, Option.bind_some, hrun]
    rfl
  refine ⟨db', tent, hcreate, h.createNameFile hdt hcreate,
    (hm.trans (.addCreate _ _)).trans (hels p ∅), ?_, rfl, rfl⟩
  -- the row is at another place than, say, the one of the longer name
  have hne : tent.place ≠ (p.1, 'x' :: p.2) := by
    intro heq
    have hlen := congrArg (fun q : TupId × Text => q.2.length) heq
    simp [TupEntry.place, tent] at hlen
  refine ((hels (p.1, 'x' :: p.2) ∅).rows tent hne (.inl rfl)).2 ?_
  exact List.mem_append_right _ (List.mem_singleton_self _)

/-- The node `i` is a file at `p`. -/
def FileRow (i : TupId) (p : TupId × Text) (db : Db) : Prop :=
  ∃ t ∈ db.node, t.place = p ∧ t.type = .file ∧ t.tupid = i

theorem FileRow.updateNode {i : TupId} {f : TupEntry → TupEntry} (h : ∃ t ∈ db.node, t.place = p ∧
    t.tupid = i ∧ (f t).type = .file)
    (hf : ∀ t, (f t).tupid = t.tupid ∧ (f t).place = t.place) : FileRow i p (db.updateNode i f) := by
  obtain ⟨t, ht, rfl, rfl, htype⟩ := h
  refine ⟨f t, List.mem_map.2 ⟨t, ht, if_pos rfl⟩, (hf t).2, htype, (hf t).1⟩

/-- A file has changed. -/
theorem fileChanged_total {i : TupId} {changed : Bool} (hnodup : (db.node.map TupEntry.tupid).Nodup)
    (h : FileRow i p db) : ∃ db', fileChanged db i mtime changed = some db' ∧
      Elsewhere p ∅ db db' ∧ FileRow i p db' ∧ (changed = true → i ∈ db'.flags.modify) := by
  obtain ⟨t, ht, rfl, hfile, rfl⟩ := h
  have hone : ∀ u ∈ db.node, u.tupid = t.tupid → u = t := fun u hu hid =>
    List.inj_on_of_nodup_map hnodup hu ht hid
  have hrow : tupEntryAdd db t.tupid = some t :=
    (Lib.find_eq_some_key hnodup).2 ⟨ht, rfl⟩
  have hrowt : FileRow t.tupid t.place db := ⟨t, ht, rfl, hfile, rfl⟩
  unfold fileChanged
  cases changed with
  | false => exact ⟨db, rfl, .refl _ _ _, hrowt, fun hc => by cases hc⟩
  | true =>
    let m := tupDbSetDependentFlags (db.addModify t.tupid) t.tupid
    have hm : Elsewhere t.place ∅ db m := (Elsewhere.addModify db _).trans (.setDependentFlags _ _)
    have hgen : ¬ t.type = .generated := by rw [hfile]; decide
    simp only [hrow, Option.bind_eq_bind, Option.bind_some, Bool.not_true, Bool.false_eq_true, if_false,
      if_neg hgen]
    refine ⟨_, rfl, ?_, ?_, fun _ => ?_⟩
    · refine hm.trans (.ite (.updateNode (fun _ => ⟨rfl, rfl⟩) ?_) (.refl _ _ _))
      intro u hu hid
      obtain rfl := hone u hu hid
      exact .inl ⟨rfl, .inl hfile, by rw [hfile]; decide⟩
    · split
      · exact FileRow.updateNode ⟨t, ht, rfl, rfl, hfile⟩ fun _ => ⟨rfl, rfl⟩
      · exact hrowt
    · have hmem : t.tupid ∈ m.flags.modify := Finset.mem_insert_self _ _
      split
      · exact hmem
      · exact hmem

/-- A ghost becomes a file. -/
theorem ghostToFile_total {t : TupEntry} (hnodup : (db.node.map TupEntry.tupid).Nodup)
    (ht : t ∈ db.node) (hghost : t.type = .ghost) (hdt : HasNode db t.dt) :
    ∃ db', ghostToFile db t = some db' ∧ Elsewhere t.place ∅ db db' ∧ FileRow t.tupid t.place db' ∧
      t.tupid ∈ db'.flags.modify ∧ (db'.node.map TupEntry.tupid).Nodup := by
  let m := tupDbSetType { db with ghostRoot := tentTreeRemove db.ghostRoot t.tupid } t.tupid .file
  have hm : Elsewhere t.place ∅ db m := by
    have hroot : Elsewhere t.place ∅ db { db with ghostRoot := tentTreeRemove db.ghostRoot t.tupid } :=
      .ghostRoot _ _
    refine hroot.trans (.updateNode (fun _ => ⟨rfl, rfl⟩) ?_)
    intro u hu hid
    obtain rfl := List.inj_on_of_nodup_map hnodup hu ht hid
    exact .inl ⟨rfl, .inr hghost, (by decide : NodeType.file ≠ .generatedDir)⟩
  have hrow : FileRow t.tupid t.place m :=
    FileRow.updateNode ⟨t, ht, rfl, rfl, rfl⟩ fun _ => ⟨rfl, rfl⟩
  have hnodupm : (m.node.map TupEntry.tupid).Nodup := by
    rw [show m.node = (tupDbSetType db t.tupid .file).node from rfl, map_tupid_setType]
    exact hnodup
  obtain ⟨parent, hparent⟩ := tupEntryAdd_of_hasNode (hm.hasNode _ hdt (Set.notMem_empty _))
  let m' := if parent.type = .dir then m.addCreate t.dt else m
  have hrun : ghostToFile db t = some (m'.addModify t.tupid) := by
    unfold ghostToFile
    change (tupEntryAdd m t.dt).bind _ = _
    rw [hparent]
    rfl
  have hm' : Elsewhere t.place ∅ m m' := .ite (.addCreate _ _) (.refl _ _ _)
  refine ⟨_, hrun, (hm.trans hm').trans (.addModify _ _), ?_, Finset.mem_insert_self _ _, ?_⟩
  · change FileRow t.tupid t.place m'
    dsimp only [m']
    split
    · exact hrow
    · exact hrow
  · change (m'.node.map TupEntry.tupid).Nodup
    dsimp only [m']
    split
    · exact hnodupm
    · exact hnodupm

/-- A file or a ghost becomes a file. -/
theorem becomeFile_plain {t : TupEntry} (hnodup : (db.node.map TupEntry.tupid).Nodup)
    (ht : t ∈ db.node) (hplain : t.Plain) (hdt : HasNode db t.dt) (file : Text) (dt : TupId) :
    ∃ m, becomeFile fuel db t dt file mtime = some (m, t.tupid, false) ∧ Elsewhere t.place ∅ db m ∧
      FileRow t.tupid t.place m ∧ (t.type = .ghost → t.tupid ∈ m.flags.modify) ∧
      (m.node.map TupEntry.tupid).Nodup := by
  unfold becomeFile
  rcases hplain with hfile | hghost
  · rw [hfile]
    have hne : NodeType.file ≠ .ghost := by decide
    exact ⟨db, rfl, .refl _ _ _, ⟨t, ht, rfl, hfile, rfl⟩, fun h => absurd h hne, hnodup⟩
  · obtain ⟨m, hm, hels, hrow, hmodify, hnodupm⟩ := ghostToFile_total hnodup ht hghost hdt
    rw [hghost]
    simp only [hm]
    exact ⟨m, rfl, hels, hrow, fun _ => hmodify, hnodupm⟩

/-- A file that is there has been looked at. -/
theorem fileModMtime_plain (h : db.Sound) (hdt : HasNode db p.1)
    (hplain : ∀ t ∈ db.node, t.place = p → t.Plain) (hfuel : generatedDirs db < fuel)
    (force ignoreGenerated : Bool) :
    ∃ db' i b, tupFileModMtime fuel db p.1 p.2 mtime force ignoreGenerated = some (db', i, b) ∧
      db'.Sound ∧ Elsewhere p ∅ db db' ∧ FileSeen force p db db' := by
  obtain ⟨dtent, hdtent⟩ := tupEntryAdd_of_hasNode hdt
  have hrun : ∃ db' i b, tupFileModMtime fuel db p.1 p.2 mtime force ignoreGenerated =
      some (db', i, b) ∧ Elsewhere p ∅ db db' ∧ FileSeen force p db db' := by
    unfold tupFileModMtime
    simp only [hdtent, Option.bind_eq_bind, Option.bind_some]
    rcases hsel : tupDbSelectTent db p.1 p.2 with _ | t
    · have hfree := select_eq_none_iff.1 hsel
      obtain ⟨m, t, hcreate, -, hels, ht, hplace, hfile⟩ :=
        @createNameFile_total db p fuel mtime h hdt hfree hfuel
      refine ⟨fileModified m t.tupid p.1 p.2, t.tupid, true, ?_, ?_, ?_⟩
      · simp only [hcreate]
        rfl
      · exact hels.trans (elsewhere_fileModified _ _ _ _ _ _)
      · refine ⟨t, ?_, hplace, hfile, fun t₀ ht₀ hplace₀ => absurd hplace₀ (hfree t₀ ht₀)⟩
        rwa [node_fileModified]
    · obtain ⟨ht, hplace⟩ := (select_eq_some_iff h.tree).1 hsel
      obtain rfl : t.place = p := hplace
      have htplain := hplain t ht rfl
      obtain ⟨m, hbecome, helsm, hrowm, hghost, hnodupm⟩ :=
        @becomeFile_plain db fuel mtime t h.tree.nodup ht htplain hdt t.place.2 t.place.1
      let forced := force && !(ignoreGenerated && decide (t.type = .generated))
      have hforced : force = true → forced = true := by
        intro hf
        have hgen : t.type ≠ .generated := by
          rcases htplain with htype | htype
          all_goals
            rw [htype]
            decide
        simp [forced, hf, hgen]
      obtain ⟨m', hchanged, helsm', hrowm', hmodify⟩ := @fileChanged_total m t.place mtime t.tupid
        (decide (t.mtime ≠ mtime) || forced) hnodupm hrowm
      let db' := if false || (decide (t.mtime ≠ mtime) || forced) then
        fileModified m' t.tupid t.place.1 t.place.2 else m'
      have hels : Elsewhere t.place ∅ m' db' := .ite (elsewhere_fileModified _ _ _ _ _ _) (.refl _ _ _)
      have hnode : db'.node = m'.node := by
        dsimp only [db']
        split
        · exact node_fileModified _ _ _ _
        · rfl
      refine ⟨db', t.tupid, false || (decide (t.mtime ≠ mtime) || forced), ?_,
        (helsm.trans helsm').trans hels, ?_⟩
      · simp only [hbecome]
        change (fileChanged m t.tupid mtime (decide (t.mtime ≠ mtime) || forced)).bind _ = _
        rw [hchanged]
        rfl
      · obtain ⟨u, hu, hplace, hfile, hid⟩ := hrowm'
        refine ⟨u, hnode ▸ hu, hplace, hfile, fun t₀ ht₀ hp => ?_⟩
        obtain rfl := h.tree.eq_of_place ht₀ ht hp
        refine ⟨hid, fun hor => ?_⟩
        rw [hid]
        apply hels.modify _ _ (Set.notMem_empty _)
        rcases hor with hf | hg
        · exact hmodify (by simp [hforced hf])
        · exact helsm'.modify _ (hghost hg) (Set.notMem_empty _)
  obtain ⟨db', i, b, hmod, hels, hseen⟩ := hrun
  exact ⟨db', i, b, hmod, h.fileModMtime hmod, hels, hseen⟩

end

end Metatup
