import Metatup.Db.Referential
import Metatup.Server.JobTree

/-!
# From a read of a job to the dependency check

What a job opens or stats is noted in the read list, and the read list becomes the set of nodes that
`tup_db_check_actual_inputs` looks at.

* `JobEvent.run`: what a job does, with what is noted.
* `addNodeToTree`, `updateReadInfo`: from the read list to the nodes.
* `Tracked`: a path that is in the read list and will stay there.
* `read_reaches_check`: the reads that reach the check.
-/

namespace Metatup

open Lib FileTree

/-! ### What a job does -/

inductive JobEvent
  | ask (r : JobRequest)
  | open (p : List PathName) (flags : OpenFlags)
  | readlink (p : List PathName)

/-- The state after something a job does. -/
def JobEvent.run (host : Host) (n : ℕ) (s : FuseState) : JobEvent → FuseState
  | .ask r => (serve host n s r).2
  | .open p flags => (tupFsOpen host s (jobPath n p) flags).2
  | .readlink p => (tupFsReadlink host s (jobPath n p)).2

/-- The state after a trace. -/
def runJob (host : Host) (n : ℕ) (s : FuseState) (tr : List JobEvent) : FuseState :=
  tr.foldl (JobEvent.run host n) s

/-- The path that is opened for reading or asked about. -/
def JobEvent.reads : JobEvent → Option (List PathName)
  | .ask (.getattr p) => some p
  | .open p flags => if flags = .wronly then none else some p
  | _ => none

/-- The path is removed. A file that is renamed to a `.fuse_hidden` one is removed while it is open. -/
def JobEvent.Unlinks (p : List PathName) : JobEvent → Prop
  | .ask (.unlink q) => q = p
  | .ask (.rename q q') => q = p ∧ strstr (pathText q') ".fuse_hidden".toList = true
  | _ => False

/-! ### The read set -/

/-- What `update_read_info` is given besides the lists of the job. -/
structure ReadData where
  fullDeps : Bool
  /-- The node of the root directory. -/
  slashDt : TupId
  /-- The directory of the variables. -/
  vardt : TupId
  /-- `get_outside_tup_mtime` -/
  outsideMtime : TupId → Text → Option (Int × Int)
  usedGroupsRoot : TentTree

/-- The node of a name in a directory, a new ghost if there is none. -/
def getGhost (mtimeOf : TupId → Text → Option (Int × Int)) (db : Db) (dt : TupId) (pel : Text) :
    Option (Db × TupEntry) :=
  match tupDbSelectTent db dt pel with
  | some tent => some (db, tent)
  | none => do
    let mtime ← mtimeOf dt pel
    tupDbNodeInsertTentDisplay db { tupid := 0, dt := dt, type := .ghost, name := pel, mtime := mtime }

/-- Source: `create_name_file.c` `find_dir_tupid_dt_pg` with `SOTGV_CREATE_GHOSTS`, from the directory
where it starts; no directory is the result `0` of a path that climbs out of the top. -/
def findDirGhosts (mtimeOf : TupId → Text → Option (Int × Int)) :
    Db → TupEntry → List Text → Option (Db × Option TupEntry)
  | db, tent, [] => some (db, some tent)
  | db, tent, pel :: rest =>
    if pel = dotdot then
      match tupEntryAdd db tent.dt with
      | none => some (db, none)
      | some parent => findDirGhosts mtimeOf db parent rest
    else do
      let (db, tent) ← getGhost mtimeOf db tent.tupid pel
      findDirGhosts mtimeOf db tent rest

/-- Source: `db.h` `INVALID_MTIME` -/
def invalidMtime : Int × Int := (-1, 0)

/-- A node that is no input: a directory, or a directory outside of the project by its mtime. -/
def untracked (tent : TupEntry) : Bool :=
  tent.type = .dir || tent.type = .generatedDir || tent.mtime.1 = 0

/-- The end of `add_node_to_tree`: the node of the last name. -/
def addLastNode (mtimeOf : TupId → Text → Option (Int × Int)) (s : Db × TentTree) (dt : TupId)
    (pel : Text) : Option (Db × TentTree) := do
  let (db, tent) ← getGhost mtimeOf s.1 dt pel
  return (db, if untracked tent then s.2 else tentTreeAddDup s.2 tent.tupid)

/-- Source: `file.c` `add_node_to_tree` -/
def addNodeToTree (data : ReadData) (top : Text) (fullDeps : Bool) (dt : TupId) (s : Db × TentTree)
    (filename : Text) : Option (Db × TentTree) :=
  let pg := getPathElements top filename
  let mtimeOf := if fullDeps && pg.outsideTup then data.outsideMtime else fun _ _ => some invalidMtime
  if pg.hidden || (!fullDeps && pg.outsideTup) then some s
  else
    match pg.pathList.getLast? with
    | none => (tupEntryAdd s.1 dt).map fun _ => s
    | some pel => do
      let tent ← tupEntryAdd s.1 (if pg.outsideTup then data.slashDt else if pg.root then dotDt else dt)
      match ← findDirGhosts mtimeOf s.1 tent pg.pathList.dropLast with
      | (db, none) => return (db, s.2)
      | (db, some tent) => addLastNode mtimeOf (db, s.2) tent.tupid pel

/-- Source: `tent_tree.c` `tent_tree_copy`, which ends at an entry that is there already. -/
def tentTreeCopy (dest : TentTree) : List TupId → TentTree
  | [] => dest
  | i :: src =>
    match tentTreeAdd dest i with
    | some dest => tentTreeCopy dest src
    | none => dest

/-- What `update_read_info` does with one entry of the read list. -/
def updateRead (host : Host) (data : ReadData) (s : Db × TentTree) (filename : Text) :
    Option (Db × TentTree) :=
  if host.exclusionMatch filename then some s
  else addNodeToTree data host.top data.fullDeps dotDt s filename

/-- Source: `file.c` `write_files` and `update_read_info`: the database and the set of nodes that are
passed to `tup_db_check_actual_inputs`. -/
def updateReadInfo (host : Host) (data : ReadData) (db : Db) (info : FileInfo) : Option (Db × TentTree) := do
  let info := handleUnlink info
  let s ← info.readList.foldlM (updateRead host data) (db, ∅)
  let s ← info.varList.foldlM (addNodeToTree data host.top false data.vardt) s
  return (s.1, tentTreeCopy s.2 data.usedGroupsRoot.ids)

/-! ### Paths in the read list -/

/-- The path is in the read list and is not to be taken out again. -/
def Tracked (s : FuseState) (p : List PathName) : Prop :=
  pathText p ∈ s.finfo.readList ∧ pathText p ∉ s.finfo.unlinkList

section

variable {host : Host} {n : ℕ} {s s' : FuseState} {p q : List PathName} {path : Text} {e : JobEvent}

theorem Tracked.of_eq (h : Tracked s p) (hread : s'.finfo.readList = s.finfo.readList)
    (hunlink : s'.finfo.unlinkList = s.finfo.unlinkList) : Tracked s' p := by
  unfold Tracked
  rwa [hread, hunlink]

theorem Tracked.handleOpenFile {at_ : AccessType} {name : Text} (h : Tracked s p)
    (hne : at_ = .unlink → name ≠ pathText p) : Tracked (s.mapFinfo (handleOpenFile at_ name)) p := by
  obtain ⟨hread, hunlink⟩ := h
  cases at_ with
  | read => exact ⟨List.mem_append_left _ hread, hunlink⟩
  | write => exact ⟨hread, fun hmem => hunlink (List.mem_of_mem_filter hmem)⟩
  | unlink =>
    refine ⟨hread, fun hmem => ?_⟩
    rcases List.mem_append.1 hmem with hold | hnew
    · exact hunlink hold
    · exact hne rfl (List.mem_singleton.1 hnew).symm
  | var => exact ⟨hread, hunlink⟩

theorem Tracked.handleFile {at_ : AccessType} (h : Tracked s p)
    (hne : at_ = .unlink → peel path ≠ pathText p) : Tracked (s.handleFile path at_) p := by
  unfold FuseState.handleFile
  split
  · exact h
  · exact h.handleOpenFile hne

theorem Tracked.addMapping (h : Tracked s p) : Tracked (s.addMapping path) p := by
  simp only [FuseState.addMapping]
  split
  · exact h
  · exact @Tracked.handleOpenFile s p .write (peel path) h (fun hw => by cases hw)

/-- The path is no mapping when that of another path has been taken out. -/
theorem findMapping_clearTarget (h : s.findMapping path = none) (dst : Text) :
    (clearTarget host s dst).findMapping path = none := by
  unfold clearTarget
  split
  · next map hmap =>
    have hsub : ((if host.inTop then s.setTmp map.tmpname none else s).delMap dst).finfo.mappingList =
        s.finfo.mappingList.eraseP (·.realname = peel dst) := by
      split <;> rfl
    unfold FuseState.findMapping at h ⊢
    rw [hsub]
    rw [List.find?_eq_none] at h ⊢
    exact fun other hother => h other (List.mem_of_mem_eraseP hother)
  · exact h

theorem tracked_clearTarget (h : Tracked s p) (dst : Text) : Tracked (clearTarget host s dst) p := by
  unfold clearTarget
  split
  · refine h.of_eq ?_ ?_
    · split <;> rfl
    · split <;> rfl
  · exact h

/-- Renaming another path, or one that is not the job's own file, leaves a path in the list. -/
theorem tracked_rename {q' : List PathName} (h : Tracked s p)
    (hown : q = p → s.findMapping (jobPath n p) = none) :
    Tracked (tupFsRename host s (jobPath n q) (jobPath n q')).2 p := by
  have hclear : Tracked (clearTarget host s (jobPath n q')) p := tracked_clearTarget h _
  have hne : ∀ map, (clearTarget host s (jobPath n q')).findMapping (jobPath n q) = some map →
      pathText q ≠ pathText p := by
    intro map hmap heq
    have hqp := pathText_injective heq
    rw [hqp, findMapping_clearTarget (hown hqp)] at hmap
    cases hmap
  simp only [tupFsRename, peel_jobPath]
  split
  · exact h.of_eq rfl rfl
  split
  · exact hclear
  next map hmap =>
  have hqp := hne map hmap
  split
  · refine Tracked.handleFile ?_ fun _ => ?_
    · exact hclear.of_eq rfl rfl
    · rw [peel_jobPath]
      exact hqp
  · obtain ⟨hread, hunlink⟩ := hclear
    refine ⟨List.mem_map.2 ⟨pathText p, hread, if_neg (Ne.symm hqp)⟩, fun hmem => ?_⟩
    exact hunlink (List.mem_of_mem_filter hmem)

theorem tracked_getattr (h : Tracked s p) : Tracked (tupFsGetattr host s path).2 p := by
  simp only [tupFsGetattr]
  split
  · exact h
  split
  · exact h
  split
  · exact h.handleFile fun hw => by cases hw
  split
  · exact h
  · exact h.handleOpenFile fun hw => by cases hw
  · exact h.handleFile fun hw => by cases hw

/-- A path that is tracked stays so, unless it is removed or renamed. -/
theorem Tracked.run (h : Tracked s p) (hun : ¬ e.Unlinks p)
    (hown : ∀ q, e = .ask (.rename p q) → s.findMapping (jobPath n p) = none) :
    Tracked (e.run host n s) p := by
  cases e with
  | «open» q flags =>
    show Tracked (tupFsOpen host s (jobPath n q) flags).2 p
    have hopen : ∀ fresh : Bool, Tracked (if fresh then s.addMapping (jobPath n q) else s) p := by
      intro fresh
      cases fresh with
      | true => exact h.addMapping
      | false => exact h
    simp only [tupFsOpen]
    apply (hopen _).handleFile
    intro hw
    split at hw <;> cases hw
  | readlink q =>
    show Tracked (tupFsReadlink host s (jobPath n q)).2 p
    simp only [tupFsReadlink]
    split
    · exact h.handleFile fun hw => by cases hw
    split
    · exact h.handleFile fun hw => by cases hw
    · exact h
    · exact h
  | ask r =>
    show Tracked (serve host n s r).2 p
    unfold serve
    split
    · exact h
    cases r with
    | mkdir q =>
      simp only [handler, tupFsMkdir]
      split
      · exact h
      · exact h.of_eq rfl rfl
    | create q kind made =>
      simp only [handler, mknodInternal]
      split
      · exact h
      split
      · exact h
      have hadd : Tracked (if kind = .reg then
          (s.addMapping (jobPath n q)).handleFile (jobPath n q) .write else s.addMapping (jobPath n q)) p := by
        split
        · exact h.addMapping.handleFile fun hw => by cases hw
        · exact h.addMapping
      split
      · exact hadd.of_eq rfl rfl
      · exact hadd
    | symlink target q made =>
      simp only [handler, tupFsSymlink]
      split
      · have hadd : Tracked (s.addMapping (jobPath n q)) p := h.addMapping
        exact hadd.of_eq rfl rfl
      · exact h.addMapping
    | rename q q' =>
      refine tracked_rename h fun hqp => ?_
      exact hown q' (by rw [hqp])
    | unlink q =>
      simp only [handler, tupFsUnlink]
      split
      · refine Tracked.handleFile (h.of_eq rfl rfl) fun _ => ?_
        rw [peel_jobPath]
        exact fun heq => hun (pathText_injective heq)
      · split
        · exact h
        · exact h
    | rmdir q =>
      simp only [handler, tupFsRmdir]
      split
      · exact h
      split
      · exact h
      split
      · exact h.of_eq rfl rfl
      · exact h
    | truncate q size made =>
      have hwrite : Tracked (s.handleFile (jobPath n q) .write) p := h.handleFile fun hw => by cases hw
      simp only [handler, tupFsTruncate]
      split
      · split
        · exact hwrite.of_eq rfl rfl
        · exact hwrite
      · split
        · exact hwrite
        · exact hwrite
    | getattr q => exact tracked_getattr h

/-! ### What is recorded -/

/-- The event puts the path it reads into the read list, to stay there. -/
def Notes (host : Host) (n : ℕ) (s : FuseState) : JobEvent → Prop
  | .ask (.getattr p) =>
    strstr (pathText p) ('/' :: tupMnt) = false ∧ ignoreFile (pathText p) = false ∧
      (getVirtualVar host.top (pathText p) = none ∨ (s.findMapping (jobPath n p)).isSome) ∧
      pathText p ∉ s.finfo.unlinkList
  | .open p flags => flags = .rdonly ∧ ignoreFile (pathText p) = false ∧ pathText p ∉ s.finfo.unlinkList
  | _ => True

/-- The path names a regular file, or nothing. -/
def NamesFile (host : Host) (s : FuseState) (p : List PathName) : Prop :=
  s.overlay host p = none ∨ ∃ bytes m, s.overlay host p = some ⟨.leaf (.reg bytes), m⟩

theorem tracked_handleFile_read (hignored : ignoreFile (pathText p) = false)
    (hunlink : pathText p ∉ s.finfo.unlinkList) : Tracked (s.handleFile (jobPath n p) .read) p := by
  unfold FuseState.handleFile
  rw [peel_jobPath, hignored]
  exact ⟨List.mem_append_right _ (List.mem_singleton_self _), hunlink⟩

theorem tracked_of_reads (hreads : e.reads = some p) (hfile : NamesFile host s p)
    (hrec : Notes host n s e) : Tracked (e.run host n s) p := by
  cases e with
  | readlink q => cases hreads
  | «open» q flags =>
    obtain ⟨rfl, hignored, hunlink⟩ := hrec
    cases hreads
    have hrun : (tupFsOpen host s (jobPath n p) .rdonly).2 = s.handleFile (jobPath n p) .read := by
      simp [tupFsOpen]
    show Tracked (tupFsOpen host s (jobPath n p) .rdonly).2 p
    rw [hrun]
    exact tracked_handleFile_read hignored hunlink
  | ask r =>
    cases r with
    | getattr q =>
      cases hreads
      obtain ⟨hmnt, hignored, hvar, hunlink⟩ := hrec
      have hdir : pathText p ∉ s.finfo.tmpdirList := by
        intro hmem
        rcases hfile with hnone | ⟨bytes, m, hleaf⟩
        · rw [FuseState.overlay_of_mem host hmem] at hnone
          cases hnone
        · rw [FuseState.overlay_of_mem host hmem] at hleaf
          cases hleaf
      have hnot : ¬ (pathText p = tupMnt ∨ strstr (pathText p) ('/' :: tupMnt) = true) := by
        rintro (heq | hsub)
        · have hhead := head_pathText p
          rw [heq] at hhead
          exact absurd hhead (by decide)
        · rw [hmnt] at hsub
          cases hsub
      show Tracked (tupFsGetattr host s (jobPath n p)).2 p
      have htracked := tracked_handleFile_read (n := n) hignored hunlink
      simp only [tupFsGetattr, peel_jobPath, if_neg hnot, if_neg hdir]
      split
      · exact htracked
      · next hmap =>
        rw [hmap] at hvar
        have hnone := hvar.resolve_right Bool.false_ne_true
        rw [hnone]
        exact htracked
    | _ => cases hreads

/-- What a path that is tracked goes through after it has been read. -/
theorem tracked_runJob (tr : List JobEvent) (h : Tracked s p) (hun : ∀ e ∈ tr, ¬ e.Unlinks p)
    (hown : ∀ tr₁ q tr₂, tr = tr₁ ++ .ask (.rename p q) :: tr₂ →
      (runJob host n s tr₁).findMapping (jobPath n p) = none) : Tracked (runJob host n s tr) p := by
  induction tr generalizing s with
  | nil => exact h
  | cons e tr ih =>
    have hstep : Tracked (e.run host n s) p := by
      apply h.run (hun e List.mem_cons_self)
      rintro q rfl
      exact hown [] q tr rfl
    apply ih hstep fun e' he' => hun e' (List.mem_cons_of_mem _ he')
    intro tr₁ q tr₂ htr
    exact hown (e :: tr₁) q tr₂ (by rw [htr]; rfl)

end

/-! ### From the list to the nodes -/

/-- The node at the end of some names, from a directory. -/
def Leads (db : Db) : TupId → List Text → TupId → Prop
  | d, [], i => d = i
  | d, name :: names, i => ∃ t ∈ db.node, t.dt = d ∧ t.name = name ∧ Leads db t.tupid names i

/-- The text of the top directory, which may be the root of the file system. -/
def TopIs (text : Text) (top : List Text) : Prop :=
  CanonicalTop top ∧ text = topText top ∨ top = [] ∧ text = ['/']

/-- The path is in the project: some names below the top, none of which tup ignores. -/
structure InProject (top : List Text) (p : List PathName) (names : List Text) : Prop where
  split : p.map Subtype.val = top ++ names
  ne_nil : names ≠ []
  shown : anyHidden names = false

section

variable {db db' : Db} {tent : TupEntry} {d i : TupId} {names : List Text} {s s' : Db × TentTree}
  {mtimeOf : TupId → Text → Option (Int × Int)} {pel filename : Text} {data : ReadData}

theorem Leads.mono (hsub : ∀ t ∈ db.node, t ∈ db'.node) (h : Leads db d names i) :
    Leads db' d names i := by
  induction names generalizing d with
  | nil => exact h
  | cons name names ih =>
    obtain ⟨t, ht, hdt, hname, hrest⟩ := h
    exact ⟨t, hsub t ht, hdt, hname, ih hrest⟩

theorem Leads.snoc {name : Text} (h : Leads db d names i) (ht : tent ∈ db.node) (hdt : tent.dt = i)
    (hname : tent.name = name) : Leads db d (names ++ [name]) tent.tupid := by
  induction names generalizing d with
  | nil =>
    cases h
    exact ⟨tent, ht, hdt, hname, rfl⟩
  | cons n names ih =>
    obtain ⟨t, hmem, hd, hn, hrest⟩ := h
    exact ⟨t, hmem, hd, hn, ih hrest⟩

/-- The directory that the last name is in. -/
theorem Leads.of_snoc {name : Text} (h : Leads db d (names ++ [name]) i) :
    ∃ t ∈ db.node, t.tupid = i ∧ t.name = name ∧ Leads db d names t.dt := by
  induction names generalizing d with
  | nil =>
    obtain ⟨t, ht, hdt, hname, rfl⟩ := h
    exact ⟨t, ht, rfl, hname, hdt.symm⟩
  | cons n names ih =>
    obtain ⟨t, ht, hdt, hname, hrest⟩ := h
    obtain ⟨u, hu, huid, huname, hlead⟩ := ih hrest
    exact ⟨u, hu, huid, huname, t, ht, hdt, hname, hlead⟩

/-- The nodes stay, and those that come are of a kind. -/
structure Gained (P : TupEntry → Prop) (db db' : Db) : Prop where
  sound : db'.Sound
  sub : ∀ t ∈ db.node, t ∈ db'.node
  new : ∀ t ∈ db'.node, t ∈ db.node ∨ P t

variable {P Q : TupEntry → Prop}

theorem Gained.refl (h : db.Sound) : Gained P db db := ⟨h, fun _ => id, fun _ => .inl⟩

theorem Gained.trans {db₂ : Db} (h : Gained P db db') (h' : Gained P db' db₂) : Gained P db db₂ := by
  refine ⟨h'.sound, fun t ht => h'.sub t (h.sub t ht), fun t ht => ?_⟩
  rcases h'.new t ht with hmid | hnew
  · exact h.new t hmid
  · exact .inr hnew

theorem Gained.imp (h : Gained P db db') (hpq : ∀ t, P t → Q t) : Gained Q db db' :=
  ⟨h.sound, h.sub, fun t ht => (h.new t ht).imp_right (hpq t)⟩

/-- A node that was there is found by the same names as before. -/
theorem Gained.leads (h : Gained P db db') (hs : db.Sound) (hi : HasNode db i)
    (hl : Leads db' dotDt names i) : Leads db dotDt names i := by
  induction names using List.reverseRecOn generalizing i with
  | nil => exact hl
  | append_singleton names name ih =>
    obtain ⟨t, ht, rfl, hname, hdir⟩ := hl.of_snoc
    obtain ⟨u, hu, hid⟩ := hasNode_iff.1 hi
    have hsame : u = t := h.sound.tree.eq_of_tupid (h.sub u hu) ht hid
    subst hsame
    rcases hs.referential.dir u hu with ⟨-, hzero⟩ | hn
    · rw [hzero] at hdir
      rcases List.eq_nil_or_concat' names with rfl | ⟨ns, m, rfl⟩
      · exact absurd (show dotDt = 0 from hdir) (by decide)
      · obtain ⟨v, hv, hvid, -⟩ := hdir.of_snoc
        exact absurd hvid (h.sound.pos v hv).ne'
    · exact (ih hn hdir).snoc hu rfl hname

/-- The ghosts that are made with an mtime that `mtimeOf` gives. -/
def GhostOf (mtimeOf : TupId → Text → Option (Int × Int)) (t : TupEntry) : Prop :=
  t.type = .ghost ∧ ∃ d pel, mtimeOf d pel = some t.mtime

theorem getGhost_spec (h : db.Sound) (hd : HasNode db d) (hrun : getGhost mtimeOf db d pel = some (db', tent)) :
    Gained (GhostOf mtimeOf) db db' ∧ tent ∈ db'.node ∧ tent.dt = d ∧ tent.name = pel := by
  unfold getGhost at hrun
  rcases hsel : tupDbSelectTent db d pel with _ | t
  · rw [hsel] at hrun
    obtain ⟨mtime, hmtime, hins⟩ := Option.bind_eq_some_iff.1 hrun
    have hsrc : (0 : Int) ≤ -1 → HasNode db (-1) := fun hneg => absurd hneg (by decide)
    have hsound := h.nodeInsert hd hsrc hins
    unfold tupDbNodeInsertTentDisplay at hins
    split at hins
    · cases hins
    cases hins
    refine ⟨⟨hsound.1, fun t ht => List.mem_append_left _ ht, fun t ht => ?_⟩,
      List.mem_append_right _ (List.mem_singleton_self _), rfl, rfl⟩
    rcases List.mem_append.1 ht with hold | hnew
    · exact .inl hold
    · rw [List.mem_singleton.1 hnew]
      exact .inr ⟨rfl, d, pel, hmtime⟩
  · rw [hsel] at hrun
    cases hrun
    have hmem := List.mem_of_find?_eq_some hsel
    have hkey := List.find?_some hsel
    simp only [Bool.and_eq_true, decide_eq_true_eq] at hkey
    exact ⟨.refl h, hmem, hkey.1, hkey.2⟩

theorem findDirGhosts_spec {o : Option TupEntry} (h : db.Sound) (ht : tent ∈ db.node)
    (hrun : findDirGhosts mtimeOf db tent names = some (db', o)) :
    Gained (GhostOf mtimeOf) db db' ∧ (∀ t, o = some t → t ∈ db'.node) ∧
      (dotdot ∉ names → ∃ t, o = some t ∧ Leads db' tent.tupid names t.tupid) := by
  induction names generalizing db tent with
  | nil =>
    cases hrun
    refine ⟨.refl h, fun t heq => ?_, fun _ => ⟨tent, rfl, rfl⟩⟩
    cases heq
    exact ht
  | cons pel names ih =>
    unfold findDirGhosts at hrun
    split at hrun
    · next hup =>
      have hno : dotdot ∉ pel :: names → ∃ t, o = some t ∧ Leads db' tent.tupid (pel :: names) t.tupid :=
        fun hnot => absurd (hup ▸ List.mem_cons_self) hnot
      split at hrun
      · cases hrun
        exact ⟨.refl h, fun t heq => (nomatch heq), hno⟩
      · next parent hparent =>
        obtain ⟨hg, hmem, -⟩ := ih h (mem_node_of_tupEntryAdd hparent).1 hrun
        exact ⟨hg, hmem, hno⟩
    · obtain ⟨⟨db₁, t₁⟩, hghost, hrest⟩ := Option.bind_eq_some_iff.1 hrun
      obtain ⟨hg₁, ht₁, hdt₁, hname₁⟩ := getGhost_spec h (hasNode_iff.2 ⟨tent, ht, rfl⟩) hghost
      obtain ⟨hg, hmem, hlead⟩ := ih hg₁.sound ht₁ hrest
      refine ⟨hg₁.trans hg, hmem, fun hnot => ?_⟩
      obtain ⟨t, ho, hl⟩ := hlead fun hin => hnot (List.mem_cons_of_mem _ hin)
      exact ⟨t, ho, t₁, hg.sub t₁ ht₁, hdt₁, hname₁, hl⟩

theorem addLastNode_spec (h : s.1.Sound) (hd : HasNode s.1 d)
    (hrun : addLastNode mtimeOf s d pel = some s') :
    Gained (GhostOf mtimeOf) s.1 s'.1 ∧ (∀ i, i ∈ s.2 → i ∈ s'.2) ∧
      ∃ t ∈ s'.1.node, t.dt = d ∧ t.name = pel ∧ (untracked t = false → t.tupid ∈ s'.2) := by
  obtain ⟨⟨db', t⟩, hghost, hrun⟩ := Option.bind_eq_some_iff.1 hrun
  obtain ⟨hg, ht, hdt, hname⟩ := getGhost_spec h hd hghost
  cases hrun
  refine ⟨hg, fun i hi => ?_, t, ht, hdt, hname, fun htrack => ?_⟩
  · split
    · exact hi
    · exact mem_tentTreeAddDup.2 (.inr hi)
  · rw [if_neg (by rw [htrack]; exact Bool.false_ne_true)]
    exact mem_tentTreeAddDup.2 (.inl rfl)

/-- A step of the loop: the nodes stay and the set grows. -/
structure ReadAdds (s s' : Db × TentTree) : Prop where
  gained : Gained (fun _ => True) s.1 s'.1
  grows : ∀ i, i ∈ s.2 → i ∈ s'.2

theorem addNodeToTree_adds {top : Text} {fullDeps : Bool} {dt : TupId} (h : s.1.Sound)
    (hrun : addNodeToTree data top fullDeps dt s filename = some s') : ReadAdds s s' := by
  unfold addNodeToTree at hrun
  extract_lets pg mtimeOf at hrun
  split at hrun
  · cases hrun
    exact ⟨.refl h, fun _ => id⟩
  split at hrun
  · obtain ⟨_, -, rfl⟩ := Option.map_eq_some_iff.1 hrun
    exact ⟨.refl h, fun _ => id⟩
  obtain ⟨tent, hstart, hrun⟩ := Option.bind_eq_some_iff.1 hrun
  obtain ⟨⟨db₁, o⟩, hdir, hrun⟩ := Option.bind_eq_some_iff.1 hrun
  obtain ⟨hg, hmem, -⟩ := findDirGhosts_spec h (mem_node_of_tupEntryAdd hstart).1 hdir
  rcases o with _ | t
  · cases hrun
    exact ⟨hg.imp fun _ _ => trivial, fun _ => id⟩
  · obtain ⟨hg', hgrow, -⟩ := addLastNode_spec (s := (db₁, s.2)) hg.sound
      (hasNode_iff.2 ⟨t, hmem t rfl, rfl⟩) hrun
    exact ⟨(hg.trans hg').imp fun _ _ => trivial, hgrow⟩

theorem namesOf_belowText {p : List PathName} (hp : p ≠ []) :
    namesOf (belowText p) = p.map Subtype.val := by
  induction p using List.reverseRecOn with
  | nil => exact absurd rfl hp
  | append_singleton p c ih =>
    rw [belowText_concat, namesOf_append_name _ c.2.1.ne_nil c.2.1.no_sep, List.map_append]
    congr 1
    rcases p with _ | ⟨d, p⟩
    · rfl
    · exact ih (List.cons_ne_nil d p)

/-- A path in the project is split at the top. -/
theorem getPathElements_inProject {text : Text} {top : List Text} {p : List PathName}
    (htop : TopIs text top) (h : InProject top p names) :
    let pg := getPathElements text (pathText p)
    pg.root = true ∧ pg.outsideTup = false ∧ pg.hidden = false ∧ pg.pathList = names := by
  have hp : p ≠ [] := by
    rintro rfl
    exact h.ne_nil (List.append_eq_nil_iff.1 h.split.symm).2
  have hplain : ∀ name ∈ p.map Subtype.val, name ≠ ['.'] ∧ name ≠ dotdot := by
    intro name hmem
    obtain ⟨c, -, rfl⟩ := List.mem_map.1 hmem
    exact c.2.2
  have hsplit : splitPathElements (pathText p) = top ++ names := by
    rw [splitPathElements_eq, pathText_of_ne_nil hp, namesOf_belowText hp,
      List.filter_eq_self.2 fun name hmem => decide_eq_true (hplain name hmem).1]
    have hno : dotdot ∉ p.map Subtype.val := fun hmem => (hplain _ hmem).2 rfl
    rw [h.split] at hno ⊢
    exact Lib.norm_append_names (p := []) hno
  have hes : ∀ e ∈ names, IsName e := by
    intro e he
    have hmem : e ∈ p.map Subtype.val := by
      rw [h.split]
      exact List.mem_append_right _ he
    obtain ⟨c, -, rfl⟩ := List.mem_map.1 hmem
    exact c.2.1
  have hfull : isFullPath (pathText p) = true := by
    unfold isFullPath
    rw [head_pathText]
    rfl
  have hmatch : matchTop text (top ++ names) = ([], top.length) := by
    rcases htop with ⟨htop, rfl⟩ | ⟨rfl, rfl⟩
    · exact matchTop_names htop.isName hes
    · obtain ⟨name, rest, rfl⟩ := List.exists_cons_of_ne_nil h.ne_nil
      have hno : ¬ name.isPrefixOf ([] : Text) = true := by
        rw [List.isPrefixOf_iff_prefix, List.prefix_nil]
        exact (hes name List.mem_cons_self).ne_nil
      exact if_neg hno
  have hdrop : (top ++ names).drop top.length = names := List.drop_left
  simp only [getPathElements, hsplit, hmatch, hfull]
  simp [hdrop, h.shown]

/-- The nodes that the path may have in the database to become an input. -/
def TracksNode (db : Db) (names : List Text) : Prop :=
  ∀ t ∈ db.node, Leads db dotDt names t.tupid → untracked t = false

/-- The path of a file in the project gets its node into the set. -/
theorem addNodeToTree_inProject {text : Text} {top : List Text} {p : List PathName} {fullDeps : Bool}
    {dt : TupId} (htop : TopIs text top) (hp : InProject top p names) (h : s.1.Sound) (hnode : TracksNode s.1 names)
    (hrun : addNodeToTree data text fullDeps dt s (pathText p) = some s') :
    ∃ i ∈ s'.2, Leads s'.1 dotDt names i := by
  obtain ⟨hroot, hout, hhid, hlist⟩ := getPathElements_inProject htop hp
  unfold addNodeToTree at hrun
  extract_lets pg mtimeOf at hrun
  have hpg : pg.root = true ∧ pg.outsideTup = false ∧ pg.hidden = false ∧ pg.pathList = names :=
    ⟨hroot, hout, hhid, hlist⟩
  obtain ⟨hroot, hout, hhid, hlist⟩ := hpg
  obtain ⟨dirs, last, rfl⟩ := (List.eq_nil_or_concat' names).resolve_left hp.ne_nil
  have hmtime : mtimeOf = fun _ _ => some invalidMtime := by
    simp only [mtimeOf, hout, Bool.and_false, Bool.false_eq_true, if_false]
  rw [hhid, hout, hlist, List.getLast?_concat, List.dropLast_concat, hroot, hmtime] at hrun
  simp only [Bool.and_false, Bool.or_self, Bool.false_eq_true, if_false, if_true] at hrun
  obtain ⟨tent, hstart, hrun⟩ := Option.bind_eq_some_iff.1 hrun
  obtain ⟨⟨db₁, o⟩, hdir, hrun⟩ := Option.bind_eq_some_iff.1 hrun
  obtain ⟨hmem, htent⟩ := mem_node_of_tupEntryAdd hstart
  obtain ⟨hg, hmem₁, hlead⟩ := findDirGhosts_spec h hmem hdir
  have hdirs : dotdot ∉ dirs := by
    intro hin
    have hall : dotdot ∈ p.map Subtype.val := by
      rw [hp.split]
      exact List.mem_append_right _ (List.mem_append_left _ hin)
    obtain ⟨c, -, hc⟩ := List.mem_map.1 hall
    exact c.2.2.2 hc
  obtain ⟨t, rfl, hl⟩ := hlead hdirs
  rw [htent] at hl
  obtain ⟨hg', -, u, hu, hudt, huname, huset⟩ := addLastNode_spec (s := (db₁, s.2)) hg.sound
    (hasNode_iff.2 ⟨t, hmem₁ t rfl, rfl⟩) hrun
  have hul : Leads s'.1 dotDt (dirs ++ [last]) u.tupid := (hl.mono hg'.sub).snoc hu hudt huname
  refine ⟨u.tupid, huset ?_, hul⟩
  -- the node was there and may be an input, or it is a new ghost
  have hall := hg.trans hg'
  rcases hall.new u hu with hold | ⟨hghost, d, pel, hm⟩
  · exact hnode u hold (hall.leads h (hasNode_iff.2 ⟨u, hold, rfl⟩) hul)
  · unfold untracked
    rw [hghost, ← Option.some_inj.1 hm]
    rfl

/-! ### The loops -/

theorem ReadAdds.refl (h : s.1.Sound) : ReadAdds s s := ⟨.refl h, fun _ => id⟩

theorem ReadAdds.trans {s₂ : Db × TentTree} (h : ReadAdds s s') (h' : ReadAdds s' s₂) : ReadAdds s s₂ :=
  ⟨h.gained.trans h'.gained, fun i hi => h'.grows i (h.grows i hi)⟩

theorem readAdds_foldlM {α : Type} {f : Db × TentTree → α → Option (Db × TentTree)}
    (hf : ∀ s a s', s.1.Sound → f s a = some s' → ReadAdds s s') (l : List α) (h : s.1.Sound)
    (hrun : l.foldlM f s = some s') : ReadAdds s s' := by
  induction l generalizing s with
  | nil =>
    cases hrun
    exact .refl h
  | cons a l ih =>
    rw [List.foldlM_cons] at hrun
    obtain ⟨s₁, hstep, hrest⟩ := Option.bind_eq_some_iff.1 hrun
    have hadds := hf s a s₁ h hstep
    exact hadds.trans (ih hadds.gained.sound hrest)

theorem updateRead_adds {host : Host} (h : s.1.Sound) (hrun : updateRead host data s filename = some s') :
    ReadAdds s s' := by
  unfold updateRead at hrun
  split at hrun
  · cases hrun
    exact .refl h
  · exact addNodeToTree_adds h hrun

theorem subset_tentTreeCopy (dest : TentTree) (src : List TupId) (hi : i ∈ dest) :
    i ∈ tentTreeCopy dest src := by
  induction src generalizing dest with
  | nil => exact hi
  | cons j src ih =>
    unfold tentTreeCopy
    split
    · next dest' hadd =>
      apply ih
      unfold tentTreeAdd at hadd
      split at hadd
      · cases hadd
      · cases hadd
        exact mem_tentTreeAddDup.2 (.inr hi)
    · exact hi

end

/-! ### The reads that reach the check -/

/-- A path of a file in the project that a job opens for reading or asks about is a node of the set, when
it is recorded, is not the job's own file and renamed later, and has no node in the database that is
taken for a directory. -/
theorem read_reaches_check {host : Host} {top names : List Text} {n k : ℕ} {tr₁ tr₂ : List JobEvent}
    {e : JobEvent} {p : List PathName} {data : ReadData} {db : Db} {r : Db × TentTree}
    (htop : TopIs host.top top) (hreads : e.reads = some p) (hin : InProject top p names)
    (hincl : host.exclusionMatch (pathText p) = false)
    (hfile : NamesFile host (runJob host n (freshJob k) tr₁) p) (hkept : ∀ e' ∈ tr₂, ¬ e'.Unlinks p)
    (hdb : db.Sound)
    (hrun : updateReadInfo host data db (runJob host n (freshJob k) (tr₁ ++ e :: tr₂)).finfo = some r)
    (hrec : Notes host n (runJob host n (freshJob k) tr₁) e)
    (hown : ∀ tr₃ q tr₄, tr₂ = tr₃ ++ .ask (.rename p q) :: tr₄ →
      (runJob host n (freshJob k) (tr₁ ++ e :: tr₃)).findMapping (jobPath n p) = none)
    (hnode : ∀ l₁ l₂ mid,
      (handleUnlink (runJob host n (freshJob k) (tr₁ ++ e :: tr₂)).finfo).readList = l₁ ++ pathText p :: l₂ →
      l₁.foldlM (updateRead host data) (db, ∅) = some mid → TracksNode mid.1 names) :
    ∃ i ∈ r.2, Leads r.1 dotDt names i := by
  have hsplit : ∀ tr, runJob host n (freshJob k) (tr₁ ++ e :: tr) =
      runJob host n (e.run host n (runJob host n (freshJob k) tr₁)) tr := by
    intro tr
    unfold runJob
    rw [List.foldl_append, List.foldl_cons]
  have htracked : Tracked (runJob host n (freshJob k) (tr₁ ++ e :: tr₂)) p := by
    rw [hsplit]
    apply tracked_runJob tr₂ (tracked_of_reads hreads hfile hrec) hkept
    intro tr₃ q tr₄ htr
    rw [← hsplit]
    exact hown tr₃ q tr₄ htr
  generalize hs : runJob host n (freshJob k) (tr₁ ++ e :: tr₂) = s at hrun hnode htracked
  have hmem : pathText p ∈ (handleUnlink s.finfo).readList :=
    List.mem_filter.2 ⟨htracked.1, decide_eq_true htracked.2⟩
  obtain ⟨l₁, l₂, hlist⟩ := List.append_of_mem hmem
  obtain ⟨read, hread, hrun⟩ := Option.bind_eq_some_iff.1 hrun
  obtain ⟨vars, hvars, hrun⟩ := Option.bind_eq_some_iff.1 hrun
  cases hrun
  rw [hlist, List.foldlM_append] at hread
  obtain ⟨mid, hmid, hread⟩ := Option.bind_eq_some_iff.1 hread
  rw [List.foldlM_cons] at hread
  obtain ⟨next, hnext, hrest⟩ := Option.bind_eq_some_iff.1 hread
  have hfold := fun s a s' => @updateRead_adds s s' a data host
  have hadds₁ := readAdds_foldlM hfold l₁ hdb hmid
  have hadd : addNodeToTree data host.top data.fullDeps dotDt mid (pathText p) = some next := by
    unfold updateRead at hnext
    rwa [hincl, if_neg Bool.false_ne_true] at hnext
  obtain ⟨j, hj, hlead⟩ := addNodeToTree_inProject htop hin hadds₁.gained.sound
    (hnode l₁ l₂ mid hlist hmid) hadd
  have hsound := (updateRead_adds hadds₁.gained.sound hnext).gained.sound
  have hadds₂ := readAdds_foldlM hfold l₂ hsound hrest
  have hadds₃ := readAdds_foldlM (fun _ _ _ => addNodeToTree_adds) _ hadds₂.gained.sound hvars
  have hadds := hadds₂.trans hadds₃
  exact ⟨j, subset_tentTreeCopy _ _ (hadds.grows j hj), hlead.mono hadds.gained.sub⟩

/-- A project at `/w` and one at `/devel`, in which there is a file `a`. -/
def projectAt (dir : Text) : Host where
  top := '/' :: dir
  look := fun path =>
    if path = ['/'] ∨ path = '/' :: dir then some .dir
    else if path = '/' :: dir ++ "/a".toList then some (.leaf (.reg [])) else none
  access := fun _ => true
  topAccess := true
  exclusionMatch := fun _ => false
  inTop := true

def noOutside : ReadData where
  fullDeps := false
  slashDt := 0
  vardt := 0
  outsideMtime := fun _ _ => none
  usedGroupsRoot := ∅

def pathWA : List PathName := [⟨['w'], by decide⟩, ⟨['a'], by decide⟩]

/-- A job that asks about a file of the project has it in the set. -/
theorem read_reaches_check_stat : ∃ r, updateReadInfo (projectAt ['w']) noOutside emptyProject
    (runJob (projectAt ['w']) 1 (freshJob 0) [.ask (.getattr pathWA)]).finfo = some r ∧
      ∃ i ∈ r.2, Leads r.1 dotDt [['a']] i := by
  have hsome : (updateReadInfo (projectAt ['w']) noOutside emptyProject
      (runJob (projectAt ['w']) 1 (freshJob 0) [.ask (.getattr pathWA)]).finfo).isSome := by
    decide +kernel
  obtain ⟨r, hr⟩ := Option.isSome_iff_exists.1 hsome
  have htop : TopIs ['/', 'w'] [['w']] := .inl ⟨⟨List.cons_ne_nil _ _, by decide⟩, rfl⟩
  have hin : InProject [['w']] pathWA [['a']] := ⟨rfl, List.cons_ne_nil _ _, by decide⟩
  have hnode : TracksNode emptyProject [['a']] := by
    rintro t ht ⟨u, hu, -, hname, -⟩
    rw [List.mem_singleton.1 hu] at hname
    exact absurd hname (by decide)
  have hreads : (handleUnlink (runJob (projectAt ['w']) 1 (freshJob 0)
      [.ask (.getattr pathWA)]).finfo).readList = [pathText pathWA] := by decide +kernel
  refine ⟨r, hr, @read_reaches_check _ _ _ 1 0 [] [] _ _ _ _ _ htop rfl hin rfl ?_ ?_ emptyProject_sound
    hr ?_ ?_ ?_⟩
  · exact .inr ⟨[], false, by decide⟩
  · exact fun e he => absurd he List.not_mem_nil
  · exact ⟨by decide, by decide, .inl (by decide), List.not_mem_nil⟩
  · intro tr₃ q tr₄ htr
    exact absurd htr.symm (by simp)
  · intro l₁ l₂ mid hlist hmid
    rw [List.nil_append, hreads] at hlist
    rcases l₁ with _ | ⟨x, l₁⟩
    · cases hmid
      exact hnode
    · have hlen := congrArg List.length hlist
      simp at hlen

/-- The paths that need not be in the set: those below `/dev`, `/sys` and `/proc`, and the ones of ccache
and icecream. -/
def Exempt (p : List Text) : Prop :=
  (∃ dir ∈ ["dev".toList, "sys".toList, "proc".toList], p.head? = some dir) ∨ ".ccache".toList ∈ p ∨
    [".cache".toList, "ccache".toList] <:+: p ∨ "ccache-tmp".toList ∈ p.dropLast ∨
    ∃ job rest, p = "tmp".toList :: (".icecream-".toList ++ job) :: rest

def pathDevelA : List PathName := [⟨"devel".toList, by decide⟩, ⟨['a'], by decide⟩]

/-- In a project at `/devel` no file that a job opens or asks about is in the set. -/
theorem devel_read_is_lost :
    TopIs (projectAt "devel".toList).top ["devel".toList] ∧
      InProject ["devel".toList] pathDevelA [['a']] ∧ ¬ Exempt (pathDevelA.map Subtype.val) ∧
      NamesFile (projectAt "devel".toList) (freshJob 0) pathDevelA ∧
      updateReadInfo (projectAt "devel".toList) noOutside emptyProject
        (runJob (projectAt "devel".toList) 1 (freshJob 0)
          [.ask (.getattr pathDevelA), .open pathDevelA .rdonly]).finfo = some (emptyProject, ∅) := by
  refine ⟨.inl ⟨⟨List.cons_ne_nil _ _, by decide⟩, rfl⟩, ⟨rfl, List.cons_ne_nil _ _, by decide⟩, ?_,
    .inr ⟨[], false, by decide⟩, by decide +kernel⟩
  rintro (⟨dir, hdir, hhead⟩ | hmem | hsub | hmem | ⟨job, rest, heq⟩)
  · revert dir
    decide
  · exact absurd hmem (by decide)
  · exact absurd hsub (by decide)
  · exact absurd hmem (by decide)
  · exact absurd (List.cons.inj heq).1 (by decide)

end Metatup
