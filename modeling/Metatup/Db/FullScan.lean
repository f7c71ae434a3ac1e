import Metatup.Db.CreateSpec
import Metatup.Server.Reads

/-!
# Scanning what is outside of the project

Below the node `/` are the paths outside of the project that commands have looked at. Their rows have
the time of a file or a symlink, 0 for a directory and -1 for a path that is not there; the scan looks
at them again.

* `fullScanDir`: the scan, with the one list that it works on.
* `OpenedAt`: where a directory of the tree is, through symlinks.
* `TimesRight`: the rows have the times of the file system.
* `Rescanned`: what a part of the scan does to the rows that it gets to.
* `fullScanDir_iff`: the scan is exact if and only if nothing that was there is below an entry that
  leads to no directory any more but has the time that it had.

A symlink has its own time. When the directory that it leads to goes away the symlink looks unchanged,
and the scan does not go on below it.
-/

namespace Metatup

/-! ### The file system -/

/-- What `fstatat` tells of a name; of a symlink, also whether it leads to a directory. -/
inductive FileStat
  | dir
  | file (mtime : Int × Int)
  | link (mtime : Int × Int) (toDir : Bool)
  deriving DecidableEq

/-- Source: `db.c` `EXTERNAL_DIRECTORY_MTIME` -/
def externalDirectoryMtime : Int × Int := (0, 0)

/-- The time that a row has for it. -/
def FileStat.mtime : FileStat → Int × Int
  | .dir => externalDirectoryMtime
  | .file mtime => mtime
  | .link mtime _ => mtime

def FileStat.leadsToDir : FileStat → Bool
  | .dir => true
  | .file _ => false
  | .link _ toDir => toDir

/-- What the system calls say of the names in an open directory. -/
structure ExtDisk (H : Type) where
  /-- `fstatat` -/
  stat : H → Text → Except Errno FileStat
  /-- `openat` -/
  openat : H → Text → Except Errno H
  /-- `open` of a full path -/
  openFull : Text → Except Errno H

variable {H : Type} (disk : ExtDisk H)

/-- Source: `create_name_file.c` `get_outside_tup_mtime`; `dfd` is what `tup_entry_open` returns. -/
def getOutsideTupMtime (dfd : Except Errno H) (name : Text) : Option (Int × Int) :=
  match dfd with
  | .error .noent | .error .notdir => some invalidMtime
  | .error _ => none
  | .ok d =>
    match disk.stat d name with
    | .error .noent | .error .notdir => some invalidMtime
    | .error _ => none
    | .ok st => some st.mtime

/-! ### The scan -/

/-- What `full_scan_dir` finds out of an entry: `mtime`, `new_dfd` and `scan_subdir`. -/
def lookEntry (dfd : Option H) (name : Text) : (Int × Int) × Option H × Bool :=
  match dfd with
  | none => (invalidMtime, none, false)
  | some d =>
    -- the drives of Windows cannot be asked for in a directory
    if isFullPath name then (externalDirectoryMtime, (disk.openFull name).toOption, true)
    else
      match disk.stat d name with
      | .error _ => (invalidMtime, none, false)
      | .ok st =>
        (st.mtime, if st.leadsToDir then (disk.openat d name).toOption else none, st.leadsToDir)

/-- What `full_scan_dir` does with an entry; `sub` is the scan of a directory. -/
def scanEntry (sub : Option H → TupId → Db × List TupId → Option (Db × List TupId))
    (dfd : Option H) (tent : TupEntry) (s : Db × List TupId) : Option (Db × List TupId) :=
  let i := tent.tupid
  let (mtime, newDfd, scanSubdir) := lookEntry disk dfd tent.name
  if tent.mtime ≠ mtime then
    let db := tupDbSetDependentFlags (tupDbModifyCmdsByInput s.1 i) i
    sub newDfd i (tupDbSetMtime db i mtime, s.2)
  else if scanSubdir then sub newDfd i s
  else some s

/-- The loop of `full_scan_dir`, which ends at an entry of another directory. -/
def scanLoop (sub : Option H → TupId → Db × List TupId → Option (Db × List TupId))
    (dfd : Option H) (dt : TupId) : List TupId → Db × List TupId → Option (Db × List TupId)
  | [], s => some s
  | i :: tl, s => do
    let tent ← tupEntryAdd s.1 i
    if tent.dt ≠ dt then return s
    else
      let s ← scanEntry disk sub dfd tent s
      scanLoop sub dfd dt tl s

/-- Source: `path.c` `full_scan_dir`. The fuel bounds the depth of the tree; the list grows at its head,
also while it is gone through. -/
def fullScanDir : ℕ → Option H → TupId → Db × List TupId → Option (Db × List TupId)
  | 0, _, _, _ => none
  | fuel + 1, dfd, dt, (db, head) =>
    let head := (getDirEntries db dt).map TupEntry.tupid ++ head
    scanLoop disk (fullScanDir fuel) dfd dt head (db, head)

/-! ### What the rows should say -/

/-- The time of a name in a directory: that of the file or the symlink, 0 for a directory and -1 for a
name that is not there. -/
def ExtDisk.mtimeAt (dfd : Option H) (name : Text) : Int × Int := (lookEntry disk dfd name).1

/-- The directory that a name leads to, if it can be opened. -/
def ExtDisk.enter (dfd : Option H) (name : Text) : Option H := (lookEntry disk dfd name).2.1

/-- The name leads to a directory. -/
def ExtDisk.leads (dfd : Option H) (name : Text) : Bool := (lookEntry disk dfd name).2.2

/-- The open directory of a node, on the way down from the node `/`. -/
inductive OpenedAt (db : Db) (root : H) (slash : TupId) : TupId → Option H → Prop
  | top : OpenedAt db root slash slash (some root)
  | entry {d : TupId} {f : Option H} {t : TupEntry} : OpenedAt db root slash d f → t ∈ db.node →
      t.dt = d → OpenedAt db root slash t.tupid (disk.enter f t.name)

/-- Every row below the node `/` has the time of its path. -/
def TimesRight (db : Db) (root : H) (slash : TupId) : Prop :=
  ∀ d f, OpenedAt disk db root slash d f → ∀ t ∈ db.node, t.dt = d →
    t.mtime = disk.mtimeAt f t.name

/-- What depends on a path whose time has changed is to be executed or parsed. -/
def ChangesFlagged (db db' : Db) (root : H) (slash : TupId) : Prop :=
  ∀ d f, OpenedAt disk db root slash d f → ∀ t ∈ db.node, t.dt = d →
    t.mtime ≠ disk.mtimeAt f t.name → ∀ c, NormalAdj db t.tupid c →
      (nodeType db c = some .cmd → c ∈ db'.flags.modify) ∧
        (nodeType db c = some .dir → c ∈ db'.flags.create)

/-- Nothing that was there is below an entry that leads to no directory and has the time it had. -/
def NothingHidden (db : Db) (root : H) (slash : TupId) : Prop :=
  ∀ d f, OpenedAt disk db root slash d f → ∀ x ∈ db.node, x.dt = d →
    disk.leads f x.name = false → x.mtime = disk.mtimeAt f x.name →
      ∀ y ∈ db.node, y.dt = x.tupid → y.mtime = invalidMtime

/-! ### Single entries -/

section

variable {disk}

@[simp] theorem ExtDisk.mtimeAt_none (name : Text) : disk.mtimeAt none name = invalidMtime := rfl

@[simp] theorem ExtDisk.enter_none (name : Text) : disk.enter none name = none := rfl

@[simp] theorem ExtDisk.leads_none (name : Text) : disk.leads none name = false := rfl

/-- What does not lead to a directory cannot be entered. -/
theorem ExtDisk.enter_of_leads {f : Option H} {name : Text} (h : disk.leads f name = false) :
    disk.enter f name = none := by
  unfold ExtDisk.leads lookEntry at h
  unfold ExtDisk.enter lookEntry
  cases f with
  | none => rfl
  | some d =>
    dsimp only at h ⊢
    split at h
    · cases h
    · next hfull =>
      rw [if_neg hfull]
      cases hstat : disk.stat d name with
      | error e => rfl
      | ok st =>
        rw [hstat] at h
        exact if_neg (by simpa using h)

/-- The time that a new row gets is that of the path. -/
theorem getOutsideTupMtime_eq {dfd : Except Errno H} {name : Text} {mtime : Int × Int}
    (hname : isFullPath name = false) (h : getOutsideTupMtime disk dfd name = some mtime) :
    mtime = disk.mtimeAt dfd.toOption name := by
  unfold ExtDisk.mtimeAt lookEntry
  cases dfd with
  | error e =>
    cases e <;> first
      | exact (Option.some.inj h).symm
      | cases h
  | ok d =>
    have hopen : (Except.ok d : Except Errno H).toOption = some d := rfl
    rw [hopen]
    dsimp only
    rw [if_neg (by simp [hname])]
    simp only [getOutsideTupMtime] at h
    cases hstat : disk.stat d name with
    | error e =>
      rw [hstat] at h
      cases e <;> first
        | exact (Option.some.inj h).symm
        | cases h
    | ok st =>
      rw [hstat] at h
      exact (Option.some.inj h).symm

end

/-! ### Rows up to their times -/

/-- A row without its time. -/
def TupEntry.timeless (t : TupEntry) : TupEntry := { t with mtime := invalidMtime }

/-- The rows are the same up to their times. -/
def SameButTimes (db db' : Db) : Prop :=
  db'.node.map TupEntry.timeless = db.node.map TupEntry.timeless

section

variable {db db' db₁ : Db} {i j d dt slash : TupId} {t t' x : TupEntry}

theorem TupEntry.eq_of_timeless (h : t.timeless = t'.timeless) :
    t.tupid = t'.tupid ∧ t.dt = t'.dt ∧ t.type = t'.type ∧ t.name = t'.name := by
  unfold TupEntry.timeless at h
  injection h with hid hdt htype _ hname
  exact ⟨hid, hdt, htype, hname⟩

theorem SameButTimes.refl (db : Db) : SameButTimes db db := rfl

theorem SameButTimes.symm (h : SameButTimes db db') : SameButTimes db' db := Eq.symm h

theorem SameButTimes.trans (h : SameButTimes db db₁) (h₁ : SameButTimes db₁ db') :
    SameButTimes db db' := Eq.trans h₁ h

theorem SameButTimes.mem (h : SameButTimes db db') (ht : t ∈ db.node) :
    ∃ t' ∈ db'.node, t'.timeless = t.timeless := by
  have hmem : t.timeless ∈ db'.node.map TupEntry.timeless := by
    rw [h]
    exact List.mem_map_of_mem ht
  exact List.mem_map.1 hmem

theorem SameButTimes.ids (h : SameButTimes db db') :
    db'.node.map TupEntry.tupid = db.node.map TupEntry.tupid := by
  have hids : ∀ l : List TupEntry,
      l.map TupEntry.tupid = (l.map TupEntry.timeless).map TupEntry.tupid := by
    intro l
    rw [List.map_map]
    rfl
  rw [hids db'.node, hids db.node, h]

theorem SameButTimes.row (h : SameButTimes db db') (i : TupId) :
    (tupEntryAdd db' i).map TupEntry.timeless = (tupEntryAdd db i).map TupEntry.timeless := by
  have hfind : ∀ l : List TupEntry, (l.find? (·.tupid = i)).map TupEntry.timeless =
      (l.map TupEntry.timeless).find? (·.tupid = i) := by
    intro l
    rw [List.find?_map]
    rfl
  unfold tupEntryAdd
  rw [hfind, hfind, h]

theorem SameButTimes.nodeType (h : SameButTimes db db') (i : TupId) :
    nodeType db' i = nodeType db i := by
  have htype : ∀ o : Option TupEntry,
      o.map TupEntry.type = (o.map TupEntry.timeless).map TupEntry.type := by
    intro o
    rw [Option.map_map]
    rfl
  unfold Metatup.nodeType
  rw [htype, htype (tupEntryAdd db i), h.row]

theorem SameButTimes.entries (h : SameButTimes db db') (dt : TupId) :
    (getDirEntries db' dt).map TupEntry.tupid = (getDirEntries db dt).map TupEntry.tupid := by
  have hentries : ∀ db : Db, (getDirEntries db dt).map TupEntry.tupid =
      (((db.node.map TupEntry.timeless).filter (·.dt = dt)).reverse).map TupEntry.tupid := by
    intro db
    unfold getDirEntries
    rw [List.filter_map, ← List.map_reverse, List.map_map]
    rfl
  rw [hentries, hentries db, h]

theorem SameButTimes.setMtime (db : Db) (i : TupId) (mtime : Int × Int) :
    SameButTimes db (tupDbSetMtime db i mtime) := by
  unfold SameButTimes tupDbSetMtime Db.updateNode
  rw [List.map_map]
  apply List.map_congr_left
  intro t _
  dsimp only [Function.comp]
  split <;> rfl

/-! ### The tree -/

theorem UnderNode.parent (h : UnderNode db t.dt j) (ht : t ∈ db.node) : UnderNode db t.tupid j :=
  .head ⟨t, ht, rfl, rfl⟩ h

/-- A node is below one entry of a directory only. -/
theorem under_unique (h : db.Tree) {x x' : TupEntry} (hx : x ∈ db.node) (hx' : x' ∈ db.node)
    (hdt : x.dt = x'.dt) (hi : UnderNode db i x.tupid) (hi' : UnderNode db i x'.tupid) : x = x' := by
  have hright : Relator.RightUnique (ParentOf db) := by
    rintro b a a' ⟨t, ht, rfl, rfl⟩ ⟨t', ht', hid, rfl⟩
    rw [h.eq_of_tupid ht' ht hid]
  have key : ∀ y ∈ db.node, ∀ y' ∈ db.node, y.dt = y'.dt → UnderNode db y.tupid y'.tupid → y = y' := by
    intro y hy y' hy' hdt hunder
    rcases Relation.ReflTransGen.cases_head hunder with heq | ⟨p, ⟨s, hs, hid, rfl⟩, hp⟩
    · exact h.eq_of_tupid hy hy' heq
    · rw [h.eq_of_tupid hs hy hid, hdt] at hp
      exact absurd hp (not_below_of_mem h hy')
  rcases Relation.ReflTransGen.total_of_right_unique hright hi hi' with hxx | hxx
  · exact key x hx x' hx' hdt hxx
  · exact (key x' hx' x hx hdt.symm hxx).symm

end

/-! ### The effect of a scan -/

/-- The effect of looking at the nodes `V`, each in the open directory that it is in. -/
structure Rescanned (V : TupId → Option H → Prop) (db db' : Db) : Prop where
  same : SameButTimes db db'
  links : db'.normalLink = db.normalLink
  seen : ∀ t ∈ db'.node, ∀ f, V t.tupid f → t.mtime = disk.mtimeAt f t.name
  unseen : ∀ t ∈ db.node, (∀ f, ¬ V t.tupid f) → t ∈ db'.node
  modify : db.flags.modify ⊆ db'.flags.modify
  create : db.flags.create ⊆ db'.flags.create
  flagged : ∀ t ∈ db.node, ∀ f, V t.tupid f → t.mtime ≠ disk.mtimeAt f t.name →
    ∀ c, NormalAdj db t.tupid c → (nodeType db c = some .cmd → c ∈ db'.flags.modify) ∧
      (nodeType db c = some .dir → c ∈ db'.flags.create)

section

variable {disk} {db db' db₁ db₀ : Db} {i j d dt slash : TupId} {t t' x : TupEntry} {f g dfd : Option H}
  {V W : TupId → Option H → Prop} {head : List TupId}

namespace Rescanned

theorem refl (db : Db) : Rescanned disk (fun _ _ => False) db db where
  same := .refl db
  links := rfl
  seen _ _ _ := False.elim
  unseen _ ht _ := ht
  modify := subset_rfl
  create := subset_rfl
  flagged _ _ _ := False.elim

theorem congr (h : Rescanned disk V db db') (hVW : ∀ i f, V i f ↔ W i f) :
    Rescanned disk W db db' := by
  have heq : V = W := funext fun i => funext fun f => propext (hVW i f)
  rwa [← heq]

/-- Parts of a scan that look at different nodes compose. -/
theorem union (hnd : (db.node.map TupEntry.tupid).Nodup) (h : Rescanned disk V db db₁)
    (h₁ : Rescanned disk W db₁ db') (hdisj : ∀ i f g, V i f → ¬ W i g) :
    Rescanned disk (fun i f => V i f ∨ W i f) db db' where
  same := h.same.trans h₁.same
  links := h₁.links.trans h.links
  seen t' ht' f hor := by
    rcases hor with hv | hw
    · -- the second part has not looked at it
      obtain ⟨t, ht, heq⟩ := h₁.same.symm.mem ht'
      obtain ⟨hid, -⟩ := TupEntry.eq_of_timeless heq
      have hmem := h₁.unseen t ht fun g hg => hdisj t'.tupid f g hv (hid ▸ hg)
      have hnd' : (db'.node.map TupEntry.tupid).Nodup := by
        rw [(h.same.trans h₁.same).ids]
        exact hnd
      have htt : t = t' := List.inj_on_of_nodup_map hnd' hmem ht' hid
      exact h.seen t' (htt ▸ ht) f hv
    · exact h₁.seen t' ht' f hw
  unseen t ht hno := by
    apply h₁.unseen t (h.unseen t ht fun f hv => hno f (.inl hv))
    exact fun f hw => hno f (.inr hw)
  modify := h.modify.trans h₁.modify
  create := h.create.trans h₁.create
  flagged t ht f hor hne c hadj := by
    rcases hor with hv | hw
    · obtain ⟨hcmd, hdir⟩ := h.flagged t ht f hv hne c hadj
      exact ⟨fun hc => h₁.modify (hcmd hc), fun hc => h₁.create (hdir hc)⟩
    · have hmem := h.unseen t ht fun g hg => hdisj t.tupid g f hg hw
      rw [← h.same.nodeType c]
      apply h₁.flagged t hmem f hw hne c
      unfold NormalAdj at hadj ⊢
      rwa [h.links]

end Rescanned

/-- What `full_scan_dir` does with an entry before it looks below it. -/
theorem rescanned_look (h : db.Tree) (hx : x ∈ db.node) (f : Option H) :
    Rescanned disk (fun i g => i = x.tupid ∧ g = f) db
      (if x.mtime ≠ disk.mtimeAt f x.name then
        tupDbSetMtime (tupDbSetDependentFlags (tupDbModifyCmdsByInput db x.tupid) x.tupid) x.tupid
          (disk.mtimeAt f x.name)
      else db) := by
  split
  · refine ⟨.setMtime _ _ _, rfl, ?_, ?_, fun _ => Finset.mem_union_left _,
      fun _ => Finset.mem_union_left _, ?_⟩
    · rintro t' ht' _ ⟨hid, rfl⟩
      obtain ⟨t, ht, rfl⟩ := List.mem_map.1 ht'
      dsimp only at hid ⊢
      split at hid
      · next hti =>
        have htx := h.eq_of_tupid ht hx hti
        rw [if_pos hti, htx]
      · next hti => exact absurd hid hti
    · intro t ht hno
      refine List.mem_map.2 ⟨t, ht, if_neg fun hid => hno f ⟨hid, rfl⟩⟩
    · rintro t ht _ ⟨hid, rfl⟩ _ c hadj
      rw [hid] at hadj
      refine ⟨fun hc => Finset.mem_union_right _ ?_, fun hc => Finset.mem_union_right _ ?_⟩
      all_goals
        obtain ⟨u, hu, htype⟩ := Option.map_eq_some_iff.1 hc
        apply mem_dependents.2
        refine ⟨hadj, u, hu, ?_⟩
        simp [htype]
  · next hsame =>
    refine ⟨.refl db, rfl, ?_, fun _ ht _ => ht, subset_rfl, subset_rfl, ?_⟩
    · rintro t ht _ ⟨hid, rfl⟩
      rw [h.eq_of_tupid ht hx hid]
      exact not_not.1 hsame
    · rintro t ht _ ⟨hid, rfl⟩ hne
      rw [h.eq_of_tupid ht hx hid] at hne
      exact absurd hne hsame

end

/-! ### Where the scan gets to -/

/-- The scan goes on below an entry. -/
def GoesOn (f : Option H) (x : TupEntry) : Prop :=
  x.mtime ≠ disk.mtimeAt f x.name ∨ disk.leads f x.name = true

/-- The directories that a scan gets to, from one of them. -/
inductive Scanned (db : Db) (dfd : Option H) (dt : TupId) : TupId → Option H → Prop
  | top : Scanned db dfd dt dt dfd
  | entry {d : TupId} {f : Option H} {x : TupEntry} : Scanned db dfd dt d f → x ∈ db.node →
      x.dt = d → GoesOn disk f x → Scanned db dfd dt x.tupid (disk.enter f x.name)

/-- The nodes that a scan looks at. -/
def Visited (db : Db) (dfd : Option H) (dt i : TupId) (f : Option H) : Prop :=
  ∃ t ∈ db.node, t.tupid = i ∧ Scanned disk db dfd dt t.dt f

/-- The nodes that are looked at for one entry of a directory. -/
def EntryVisits (db : Db) (dfd : Option H) (x : TupEntry) (i : TupId) (f : Option H) : Prop :=
  (i = x.tupid ∧ f = dfd) ∨
    (GoesOn disk dfd x ∧ Visited disk db (disk.enter dfd x.name) x.tupid i f)

section

variable {disk} {db db' db₁ db₀ : Db} {i j d dt slash : TupId} {t t' x x' : TupEntry}
  {f g dfd : Option H} {head : List TupId}

theorem Scanned.under (h : Scanned disk db dfd dt d f) : UnderNode db d dt := by
  induction h with
  | top => exact .refl
  | entry _ hx hdt _ ih =>
    subst hdt
    exact ih.parent hx

/-- A scan from a directory gets to the directory and to what a scan from an entry gets to. -/
theorem scanned_iff : Scanned disk db dfd dt d f ↔ (d = dt ∧ f = dfd) ∨
    ∃ x ∈ db.node, x.dt = dt ∧ GoesOn disk dfd x ∧
      Scanned disk db (disk.enter dfd x.name) x.tupid d f := by
  constructor
  · intro h
    induction h with
    | top => exact .inl ⟨rfl, rfl⟩
    | @entry d f x _ hx hdt hgo ih =>
      rcases ih with ⟨rfl, rfl⟩ | ⟨y, hy, hydt, hygo, hscan⟩
      · exact .inr ⟨x, hx, hdt, hgo, .top⟩
      · exact .inr ⟨y, hy, hydt, hygo, hscan.entry hx hdt hgo⟩
  · rintro (⟨rfl, rfl⟩ | ⟨x, hx, hdt, hgo, hscan⟩)
    · exact .top
    · induction hscan with
      | top => exact Scanned.top.entry hx hdt hgo
      | entry _ hy hydt hygo ih => exact ih.entry hy hydt hygo

theorem visited_iff : Visited disk db dfd dt i f ↔
    ∃ x ∈ db.node, x.dt = dt ∧ EntryVisits disk db dfd x i f := by
  constructor
  · rintro ⟨t, ht, rfl, hscan⟩
    rcases scanned_iff.1 hscan with ⟨hdt, rfl⟩ | ⟨x, hx, hdt, hgo, hscan⟩
    · exact ⟨t, ht, hdt, .inl ⟨rfl, rfl⟩⟩
    · exact ⟨x, hx, hdt, .inr ⟨hgo, t, ht, rfl, hscan⟩⟩
  · rintro ⟨x, hx, hdt, ⟨rfl, rfl⟩ | ⟨hgo, t, ht, rfl, hscan⟩⟩
    · exact ⟨x, hx, rfl, hdt ▸ .top⟩
    · exact ⟨t, ht, rfl, scanned_iff.2 (.inr ⟨x, hx, hdt, hgo, hscan⟩)⟩

theorem EntryVisits.under (h : EntryVisits disk db dfd x i f) : UnderNode db i x.tupid := by
  rcases h with ⟨rfl, -⟩ | ⟨-, t, ht, rfl, hscan⟩
  · exact .refl
  · exact hscan.under.parent ht

/-! ### The scan and its list -/

/-- What the scan of the directory `dt` needs to know about the state that it starts in: the rows below
the directory have not been looked at, and no entry below it is in the list. -/
structure ScanReady (db₀ : Db) (dt : TupId) (db : Db) (head : List TupId) : Prop where
  same : SameButTimes db₀ db
  rows : ∀ t ∈ db₀.node, UnderNode db₀ t.dt dt → t ∈ db.node
  list : ∀ i ∈ head, ∃ t ∈ db₀.node, t.tupid = i ∧ ¬ UnderNode db₀ t.dt dt

/-- What comes out of a part of the scan that looks at the nodes `V`: entries of directories below `dt`
have been put in front of the list. -/
def ScanGives (disk : ExtDisk H) (db₀ : Db) (dt : TupId) (V : TupId → Option H → Prop)
    (s : Db × List TupId) (r : Option (Db × List TupId)) : Prop :=
  ∃ db' new, r = some (db', new ++ s.2) ∧
    (∀ i ∈ new, ∃ t ∈ db₀.node, t.tupid = i ∧ UnderNode db₀ t.dt dt) ∧
      Rescanned disk V s.1 db'

theorem SameButTimes.tree (h : SameButTimes db₀ db) (htree : db₀.Tree) : db.Tree := by
  apply tree_of_place htree
  · rw [h.ids]
    exact htree.nodup
  · intro t' ht'
    obtain ⟨t, ht, heq⟩ := h.symm.mem ht'
    obtain ⟨hid, hdt, -, hname⟩ := TupEntry.eq_of_timeless heq
    exact ⟨t, ht, hid, hdt, hname⟩

/-- One entry: its row, and what is below it. -/
theorem scanEntry_spec (htree : db₀.Tree)
    {sub : Option H → TupId → Db × List TupId → Option (Db × List TupId)}
    (hsub : ∀ db head, ScanReady db₀ x.tupid db head → ScanGives disk db₀ x.tupid
      (Visited disk db₀ (disk.enter dfd x.name) x.tupid) (db, head)
        (sub (disk.enter dfd x.name) x.tupid (db, head)))
    (hx₀ : x ∈ db₀.node) (hx : x ∈ db.node) (hready : ScanReady db₀ x.tupid db head) :
    ScanGives disk db₀ x.tupid (EntryVisits disk db₀ dfd x) (db, head)
      (scanEntry disk sub dfd x (db, head)) := by
  have htree' := hready.same.tree htree
  obtain ⟨db₁, hdb₁⟩ : ∃ m, (if x.mtime ≠ disk.mtimeAt dfd x.name then
      tupDbSetMtime (tupDbSetDependentFlags (tupDbModifyCmdsByInput db x.tupid) x.tupid) x.tupid
        (disk.mtimeAt dfd x.name)
    else db) = m := ⟨_, rfl⟩
  have hlook : Rescanned disk (fun i g => i = x.tupid ∧ g = dfd) db db₁ :=
    hdb₁ ▸ rescanned_look htree' hx dfd
  have hscan : scanEntry disk sub dfd x (db, head) =
      if x.mtime ≠ disk.mtimeAt dfd x.name ∨ disk.leads dfd x.name = true then
        sub (disk.enter dfd x.name) x.tupid (db₁, head)
      else some (db₁, head) := by
    rw [← hdb₁]
    unfold scanEntry ExtDisk.mtimeAt ExtDisk.leads ExtDisk.enter
    dsimp only
    split
    · next hne => rw [if_pos (.inl hne)]
    · next hne =>
      split
      · next hleads => rw [if_pos (.inr hleads)]
      · next hleads => rw [if_neg (not_or.2 ⟨hne, hleads⟩)]
  rw [hscan]
  by_cases hgo : x.mtime ≠ disk.mtimeAt dfd x.name ∨ disk.leads dfd x.name = true
  · rw [if_pos hgo]
    have hready₁ : ScanReady db₀ x.tupid db₁ head := by
      refine ⟨hready.same.trans hlook.same, fun t ht hunder => ?_, hready.list⟩
      apply hlook.unseen t (hready.rows t ht hunder)
      rintro g ⟨hid, -⟩
      rw [htree.eq_of_tupid ht hx₀ hid] at hunder
      exact not_below_of_mem htree hx₀ hunder
    obtain ⟨db', new, hrun, hnew, hbelow⟩ := hsub db₁ head hready₁
    refine ⟨db', new, hrun, hnew, ?_⟩
    refine (hlook.union htree'.nodup hbelow ?_).congr fun i f => ?_
    · rintro i f g ⟨rfl, -⟩ ⟨t, ht, hid, hscan⟩
      rw [htree.eq_of_tupid ht hx₀ hid] at hscan
      exact not_below_of_mem htree hx₀ hscan.under
    · exact or_congr_right (and_iff_right hgo).symm
  · rw [if_neg hgo]
    refine ⟨db₁, [], rfl, fun i hi => absurd hi List.not_mem_nil, hlook.congr fun i f => ?_⟩
    exact (or_iff_left fun h => hgo h.1).symm

/-- The loop over the entries `cs` of a directory, which stops at what comes behind them. -/
theorem scanLoop_spec (htree : db₀.Tree)
    {sub : Option H → TupId → Db × List TupId → Option (Db × List TupId)} {cs old : List TupId}
    (hsub : ∀ x ∈ db₀.node, x.dt = dt → ∀ db head, ScanReady db₀ x.tupid db head →
      ScanGives disk db₀ x.tupid (Visited disk db₀ (disk.enter dfd x.name) x.tupid) (db, head)
        (sub (disk.enter dfd x.name) x.tupid (db, head)))
    (hcs : ∀ i ∈ cs, ∃ x ∈ db₀.node, x.tupid = i ∧ x.dt = dt) (hnd : cs.Nodup)
    (hold : ∀ i ∈ old, ∃ t ∈ db₀.node, t.tupid = i ∧ t.dt ≠ dt)
    (hsame : SameButTimes db₀ db)
    (hrows : ∀ t ∈ db₀.node, ∀ i ∈ cs, UnderNode db₀ t.tupid i → t ∈ db.node)
    (hlist : ∀ i ∈ head, ∃ t ∈ db₀.node, t.tupid = i ∧ ∀ j ∈ cs, ¬ UnderNode db₀ t.dt j) :
    ScanGives disk db₀ dt
      (fun i f => ∃ x ∈ db₀.node, x.tupid ∈ cs ∧ EntryVisits disk db₀ dfd x i f) (db, head)
        (scanLoop disk sub dfd dt (cs ++ old) (db, head)) := by
  induction cs generalizing db head with
  | nil =>
    have hstop : scanLoop disk sub dfd dt old (db, head) = some (db, head) := by
      cases old with
      | nil => rfl
      | cons i old =>
        obtain ⟨t, ht, rfl, hdt⟩ := hold i List.mem_cons_self
        obtain ⟨t', ht', heq⟩ := hsame.mem ht
        obtain ⟨hid, hdt', -⟩ := TupEntry.eq_of_timeless heq
        unfold scanLoop
        rw [← hid, (hsame.tree htree).tupEntryAdd_of_mem ht', Option.bind_eq_bind, Option.bind_some]
        exact if_pos (hdt' ▸ hdt)
    refine ⟨db, [], hstop, fun i hi => absurd hi List.not_mem_nil, (Rescanned.refl db).congr ?_⟩
    intro i f
    refine iff_of_false id ?_
    rintro ⟨x, -, hx, -⟩
    exact List.not_mem_nil hx
  | cons c cs ih =>
    obtain ⟨x, hx₀, rfl, hdt⟩ := hcs c List.mem_cons_self
    obtain ⟨hc, hnd⟩ := List.nodup_cons.1 hnd
    have hx := hrows x hx₀ x.tupid List.mem_cons_self .refl
    have hready : ScanReady db₀ x.tupid db head := by
      refine ⟨hsame, fun t ht hunder => ?_, fun i hi => ?_⟩
      · exact hrows t ht x.tupid List.mem_cons_self (hunder.parent ht)
      · obtain ⟨t, ht, hid, hnot⟩ := hlist i hi
        exact ⟨t, ht, hid, hnot x.tupid List.mem_cons_self⟩
    obtain ⟨db₁, new, hrun, hnew, hscan⟩ := scanEntry_spec htree (hsub x hx₀ hdt) hx₀ hx hready
    -- the other entries are in other parts of the tree
    have hother : ∀ k j, UnderNode db₀ k x.tupid → j ∈ cs → ¬ UnderNode db₀ k j := by
      intro k j hk hj hkj
      obtain ⟨y, hy, rfl, hydt⟩ := hcs j (List.mem_cons_of_mem _ hj)
      rw [under_unique htree hx₀ hy (hdt.trans hydt.symm) hk hkj] at hc
      exact hc hj
    have hrows₁ : ∀ t ∈ db₀.node, ∀ i ∈ cs, UnderNode db₀ t.tupid i → t ∈ db₁.node := by
      intro t ht j hj hunder
      apply hscan.unseen t (hrows t ht j (List.mem_cons_of_mem _ hj) hunder)
      exact fun f hvisit => hother t.tupid j hvisit.under hj hunder
    have hlist₁ : ∀ i ∈ new ++ head,
        ∃ t ∈ db₀.node, t.tupid = i ∧ ∀ j ∈ cs, ¬ UnderNode db₀ t.dt j := by
      intro i hi
      rcases List.mem_append.1 hi with hi | hi
      · obtain ⟨t, ht, hid, hunder⟩ := hnew i hi
        exact ⟨t, ht, hid, fun j hj => hother t.dt j hunder hj⟩
      · obtain ⟨t, ht, hid, hnot⟩ := hlist i hi
        exact ⟨t, ht, hid, fun j hj => hnot j (List.mem_cons_of_mem _ hj)⟩
    obtain ⟨db', new', hrun', hnew', hscan'⟩ := ih (fun i hi => hcs i (List.mem_cons_of_mem _ hi)) hnd
      (hsame.trans hscan.same) hrows₁ hlist₁
    refine ⟨db', new' ++ new, ?_, fun i hi => ?_, ?_⟩
    · rw [List.cons_append, scanLoop, (hsame.tree htree).tupEntryAdd_of_mem hx, Option.bind_eq_bind,
        Option.bind_some, if_neg (not_not.2 hdt), hrun, Option.bind_eq_bind, Option.bind_some, hrun',
        List.append_assoc]
    · rcases List.mem_append.1 hi with hi | hi
      · exact hnew' i hi
      · obtain ⟨t, ht, hid, hunder⟩ := hnew i hi
        have hparent : UnderNode db₀ x.tupid dt := .single ⟨x, hx₀, rfl, hdt⟩
        exact ⟨t, ht, hid, hunder.trans hparent⟩
    · refine (hscan.union (hsame.tree htree).nodup hscan' ?_).congr fun i f => ?_
      · rintro i f g hvisit ⟨y, -, hy, hvisit'⟩
        exact hother i y.tupid hvisit.under hy hvisit'.under
      · constructor
        · rintro (hvisit | ⟨y, hy, hycs, hvisit⟩)
          · exact ⟨x, hx₀, List.mem_cons_self, hvisit⟩
          · exact ⟨y, hy, List.mem_cons_of_mem _ hycs, hvisit⟩
        · rintro ⟨y, hy, hycs, hvisit⟩
          rcases List.mem_cons.1 hycs with hid | hycs
          · exact .inl (htree.eq_of_tupid hy hx₀ hid ▸ hvisit)
          · exact .inr ⟨y, hy, hycs, hvisit⟩

/-- The scan of a directory returns, and looks at the nodes that it gets to. -/
theorem fullScanDir_spec {depth : TupId → ℕ} {top fuel : ℕ} (htree : db₀.Tree)
    (hok : DepthOk depth top db₀) (hpos : 0 < fuel) (hfuel : top + 1 ≤ fuel + depth dt)
    (hready : ScanReady db₀ dt db head) :
    ScanGives disk db₀ dt (Visited disk db₀ dfd dt) (db, head)
      (fullScanDir disk fuel dfd dt (db, head)) := by
  induction fuel generalizing dt dfd db head with
  | zero => omega
  | succ fuel ih =>
    obtain ⟨ids, hids⟩ : ∃ ids, (getDirEntries db₀ dt).map TupEntry.tupid = ids := ⟨_, rfl⟩
    have hcs : (getDirEntries db dt).map TupEntry.tupid = ids :=
      (hready.same.entries dt).trans hids
    have hmem : ∀ i, i ∈ ids ↔ ∃ x ∈ db₀.node, x.tupid = i ∧ x.dt = dt := by
      intro i
      rw [← hids, List.mem_map]
      constructor
      · rintro ⟨x, hx, rfl⟩
        obtain ⟨hmem, hdt⟩ := mem_getDirEntries.1 hx
        exact ⟨x, hmem, rfl, hdt⟩
      · rintro ⟨x, hx, rfl, hdt⟩
        exact ⟨x, mem_getDirEntries.2 ⟨hx, hdt⟩, rfl⟩
    have hnd : ids.Nodup := by
      unfold getDirEntries at hids
      rw [← hids, List.map_reverse, List.nodup_reverse]
      exact htree.nodup.sublist (List.Sublist.map _ List.filter_sublist)
    have hbelow : ∀ k, ∀ j ∈ ids, UnderNode db₀ k j → UnderNode db₀ k dt := by
      intro k j hj hkj
      obtain ⟨x, hx, rfl, hdt⟩ := (hmem j).1 hj
      exact hkj.tail ⟨x, hx, rfl, hdt⟩
    have hlist : ∀ i ∈ ids ++ head, ∃ t ∈ db₀.node, t.tupid = i ∧
        ∀ j ∈ ids, ¬ UnderNode db₀ t.dt j := by
      intro i hi
      rcases List.mem_append.1 hi with hi | hi
      · obtain ⟨t, ht, hid, hdt⟩ := (hmem i).1 hi
        refine ⟨t, ht, hid, fun j hj hunder => ?_⟩
        obtain ⟨x, hx, rfl, hxdt⟩ := (hmem j).1 hj
        rw [hdt, ← hxdt] at hunder
        exact not_below_of_mem htree hx hunder
      · obtain ⟨t, ht, hid, hnot⟩ := hready.list i hi
        exact ⟨t, ht, hid, fun j hj hunder => hnot (hbelow _ j hj hunder)⟩
    have hloop : ScanGives disk db₀ dt
        (fun i f => ∃ x ∈ db₀.node, x.tupid ∈ ids ∧ EntryVisits disk db₀ dfd x i f)
        (db, ids ++ head) (scanLoop disk (fullScanDir disk fuel) dfd dt (ids ++ head) (db, ids ++ head)) := by
      refine scanLoop_spec htree (fun x hx hdt db head hready => ?_) (fun i hi => (hmem i).1 hi) hnd
        (fun i hi => ?_) hready.same (fun t ht i hi hunder => ?_) hlist
      · obtain ⟨hlt, hle⟩ := hok x hx
        rw [hdt] at hlt
        exact ih (by omega) (by omega) hready
      · obtain ⟨t, ht, hid, hnot⟩ := hready.list i hi
        exact ⟨t, ht, hid, fun hdt => hnot (hdt ▸ .refl)⟩
      · -- an entry or a node below one
        obtain ⟨x, hx, rfl, hxdt⟩ := (hmem i).1 hi
        apply hready.rows t ht
        rcases Relation.ReflTransGen.cases_head hunder with heq | ⟨p, ⟨u, hu, hid, rfl⟩, hp⟩
        · rw [htree.eq_of_tupid ht hx heq, hxdt]
          exact .refl
        · rw [htree.eq_of_tupid hu ht hid] at hp
          exact hbelow _ _ hi hp
    obtain ⟨db', new, hrun, hnew, hscan⟩ := hloop
    refine ⟨db', new ++ ids, ?_, fun i hi => ?_, ?_⟩
    · rw [fullScanDir]
      dsimp only
      rw [hcs, hrun, List.append_assoc]
    · rcases List.mem_append.1 hi with hi | hi
      · exact hnew i hi
      · obtain ⟨t, ht, hid, hdt⟩ := (hmem i).1 hi
        exact ⟨t, ht, hid, hdt ▸ .refl⟩
    · refine hscan.congr fun i f => ?_
      rw [visited_iff]
      refine exists_congr fun x => and_congr_right fun hx => and_congr_left fun _ => ?_
      rw [hmem]
      constructor
      · rintro ⟨y, hy, hid, hdt⟩
        rw [← htree.eq_of_tupid hy hx hid]
        exact hdt
      · exact fun hdt => ⟨x, hx, rfl, hdt⟩

/-! ### The rows after the scan -/

theorem openedAt_iff {root : H} : OpenedAt disk db root slash d f ↔ (d = slash ∧ f = some root) ∨
    ∃ e g, OpenedAt disk db root slash e g ∧ ∃ t ∈ db.node, t.dt = e ∧ t.tupid = d ∧
      disk.enter g t.name = f := by
  constructor
  · intro h
    cases h with
    | top => exact .inl ⟨rfl, rfl⟩
    | @entry e g t hloc ht hdt => exact .inr ⟨e, g, hloc, t, ht, hdt, rfl, rfl⟩
  · rintro (⟨rfl, rfl⟩ | ⟨e, g, hloc, t, ht, hdt, rfl, rfl⟩)
    · exact .top
    · exact hloc.entry ht hdt

theorem OpenedAt.under {root : H} (h : OpenedAt disk db root slash d f) : UnderNode db d slash := by
  induction h with
  | top => exact .refl
  | entry _ ht hdt ih =>
    subst hdt
    exact ih.parent ht

/-- A directory is in one place. -/
theorem OpenedAt.unique (htree : db.Tree) {root : H} (h : OpenedAt disk db root slash d f)
    (h' : OpenedAt disk db root slash d g) : f = g := by
  have htop : ∀ t ∈ db.node, ∀ e g, OpenedAt disk db root slash e g → t.dt = e →
      t.tupid ≠ slash := by
    rintro t ht - g hloc rfl hid
    have hunder := hloc.under
    rw [← hid] at hunder
    exact not_below_of_mem htree ht hunder
  induction h generalizing g with
  | top =>
    rcases openedAt_iff.1 h' with ⟨-, rfl⟩ | ⟨e, g', hloc, t, ht, hdt, hid, -⟩
    · rfl
    · exact absurd hid (htop t ht e g' hloc hdt)
  | @entry d f t hloc ht hdt ih =>
    rcases openedAt_iff.1 h' with ⟨hid, -⟩ | ⟨e, g', hloc', t', ht', hdt', hid, rfl⟩
    · exact absurd hid (htop t ht d f hloc hdt)
    · obtain rfl := htree.eq_of_tupid ht' ht hid
      rw [ih (hdt.symm.trans hdt' ▸ hloc')]

theorem OpenedAt.same {root : H} (hsame : SameButTimes db db')
    (h : OpenedAt disk db root slash d f) : OpenedAt disk db' root slash d f := by
  induction h with
  | top => exact .top
  | entry _ ht hdt ih =>
    obtain ⟨t', ht', heq⟩ := hsame.mem ht
    obtain ⟨hid, hdt', -, hname⟩ := TupEntry.eq_of_timeless heq
    rw [← hid, ← hname]
    exact ih.entry ht' (hdt'.trans hdt)

theorem Scanned.openedAt {root : H} (h : Scanned disk db (some root) slash d f) :
    OpenedAt disk db root slash d f := by
  induction h with
  | top => exact .top
  | entry _ hx hdt _ ih => exact ih.entry hx hdt

/-- The scan gets to a directory, or nothing was there below it and nothing is. -/
theorem scanned_of_openedAt {root : H} (hhidden : NothingHidden disk db root slash)
    (h : OpenedAt disk db root slash d f) : Scanned disk db (some root) slash d f ∨
      (f = none ∧ ∀ t ∈ db.node, t.dt = d → t.mtime = invalidMtime) := by
  induction h with
  | top => exact .inl .top
  | @entry d f x hloc hx hdt ih =>
    rcases ih with hscan | ⟨rfl, hmissing⟩
    · by_cases hgo : GoesOn disk f x
      · exact .inl (hscan.entry hx hdt hgo)
      · obtain ⟨hmtime, hleads⟩ := not_or.1 hgo
        have hleads : disk.leads f x.name = false := by simpa using hleads
        refine .inr ⟨ExtDisk.enter_of_leads hleads, ?_⟩
        exact hhidden d f hloc x hx hdt hleads (not_not.1 hmtime)
    · exact .inr ⟨rfl, hhidden d none hloc x hx hdt rfl (hmissing x hx hdt)⟩

theorem visited_of_scanned {root : H} (ht : t ∈ db.node)
    (h : Scanned disk db (some root) slash t.dt f) : Visited disk db (some root) slash t.tupid f :=
  ⟨t, ht, rfl, h⟩

theorem Visited.scanned (htree : db.Tree) {root : H} (ht : t ∈ db.node)
    (h : Visited disk db (some root) slash t.tupid f) : Scanned disk db (some root) slash t.dt f := by
  obtain ⟨u, hu, hid, hscan⟩ := h
  rwa [htree.eq_of_tupid hu ht hid] at hscan

/-- With nothing hidden, the scan leaves every row with the time of its path. -/
theorem timesRight_of_rescanned (htree : db.Tree) {root : H}
    (hscan : Rescanned disk (Visited disk db (some root) slash) db db')
    (hhidden : NothingHidden disk db root slash) : TimesRight disk db' root slash := by
  intro d f hloc t' ht' hdt'
  have hloc₀ := hloc.same hscan.same.symm
  obtain ⟨t, ht, heq⟩ := hscan.same.symm.mem ht'
  obtain ⟨hid, hdt, -, hname⟩ := TupEntry.eq_of_timeless heq
  have htd : t.dt = d := hdt.trans hdt'
  rcases scanned_of_openedAt hhidden hloc₀ with hvisit | ⟨rfl, hmissing⟩
  · exact hscan.seen t' ht' f (hid ▸ visited_of_scanned ht (htd ▸ hvisit))
  · by_cases hvisit : ∃ g, Visited disk db (some root) slash t.tupid g
    · obtain ⟨g, hg⟩ := hvisit
      have hg' := (hg.scanned htree ht).openedAt
      rw [htd] at hg'
      rw [hloc₀.unique htree hg']
      exact hscan.seen t' ht' g (hid ▸ hg)
    · -- it has not been looked at, and has the time that it had
      have hmem := hscan.unseen t ht fun g hg => hvisit ⟨g, hg⟩
      have htt : t = t' := (hscan.same.tree htree).eq_of_tupid hmem ht' hid
      rw [← htt]
      exact hmissing t ht htd

theorem flagged_of_rescanned {root : H}
    (hscan : Rescanned disk (Visited disk db (some root) slash) db db')
    (hhidden : NothingHidden disk db root slash) : ChangesFlagged disk db db' root slash := by
  rintro - f hloc t ht rfl hne
  rcases scanned_of_openedAt hhidden hloc with hvisit | ⟨rfl, hmissing⟩
  · exact hscan.flagged t ht f (visited_of_scanned ht hvisit) hne
  · exact absurd (hmissing t ht rfl) hne

/-- What is hidden has the wrong time after the scan. -/
theorem hidden_of_timesRight (htree : db.Tree) {root : H}
    (hscan : Rescanned disk (Visited disk db (some root) slash) db db')
    (htimes : TimesRight disk db' root slash) : NothingHidden disk db root slash := by
  rintro - f hloc x hx rfl hleads hmtime y hy hydt
  have hlocx := hloc.entry hx rfl
  rw [ExtDisk.enter_of_leads hleads] at hlocx
  have hunseen : ∀ g, ¬ Visited disk db (some root) slash y.tupid g := by
    intro g hvisit
    have hscanned := hvisit.scanned htree hy
    rw [hydt] at hscanned
    -- the scan would have gone on below the entry
    generalize hid : x.tupid = k at hscanned
    cases hscanned with
    | top =>
      have hunder := hloc.under
      rw [← hid] at hunder
      exact not_below_of_mem htree hx hunder
    | @entry d g z hz hzmem hzdt hgo =>
      obtain rfl := htree.eq_of_tupid hzmem hx hid.symm
      have hfg : f = g := by
        rw [← hzdt] at hz
        exact hloc.unique htree hz.openedAt
      subst hfg
      rcases hgo with hne | hgo
      · exact hne hmtime
      · rw [hleads] at hgo
        cases hgo
  exact htimes x.tupid none (hlocx.same hscan.same) y (hscan.unseen y hy hunseen) hydt

/-- The scan returns. After it every row has the time of its path, and what depends on a path whose
time has changed is flagged, exactly when nothing that was there is below an entry that leads to no
directory and has the time it had. -/
theorem fullScanDir_iff (htree : db.Tree) (disk : ExtDisk H) (root : H) (slash : TupId) :
    ∃ n, ∀ fuel, n ≤ fuel → ∃ db' head,
      fullScanDir disk fuel (some root) slash (db, []) = some (db', head) ∧
        ((TimesRight disk db' root slash ∧ ChangesFlagged disk db db' root slash) ↔
          NothingHidden disk db root slash) := by
  obtain ⟨depth, top, hok⟩ := htree.depthOk
  refine ⟨top + 1, fun fuel hle => ?_⟩
  have hready : ScanReady db slash db [] :=
    ⟨.refl db, fun t ht _ => ht, fun i hi => absurd hi List.not_mem_nil⟩
  obtain ⟨db', new, hrun, -, hscan⟩ : ScanGives disk db slash (Visited disk db (some root) slash)
      (db, []) (fullScanDir disk fuel (some root) slash (db, [])) :=
    fullScanDir_spec htree hok (by omega) (by omega) hready
  refine ⟨db', new, ?_, ?_⟩
  · rw [hrun, List.append_nil]
  · constructor
    · exact fun h => hidden_of_timesRight htree hscan h.1
    · exact fun h => ⟨timesRight_of_rescanned htree hscan h, flagged_of_rescanned hscan h⟩

end

/-! ### A symlink to a directory -/

/-- The node of `/l`. -/
def linkNode : TupEntry := { tupid := 3, dt := 2, type := .ghost, name := ['l'], mtime := (5, 0) }

/-- The node of `/l/f`. -/
def fileNode : TupEntry := { tupid := 4, dt := 3, type := .ghost, name := ['f'], mtime := (7, 0) }

def linkNodes : List TupEntry :=
  [{ tupid := 1, dt := 0, type := .dir, name := ['.'] },
    { tupid := 2, dt := 1, type := .dir, name := ['/'] }, linkNode, fileNode,
    { tupid := 5, dt := 1, type := .cmd, name := ['c'] }]

/-- A project with a command that has read `/l/f`. -/
def linkProject : Db where
  node := linkNodes
  normalLink := [⟨4, 5⟩]

/-- `/l` is a symlink to a directory with the file `f`, which may have gone. The open directories are
`false` for `/` and `true` for this one. -/
def linkDisk (there : Bool) (mtime : Int × Int) : ExtDisk Bool where
  stat d name :=
    if !d && name = ['l'] then .ok (.link (5, 0) there)
    else if d && name = ['f'] then .ok (.file mtime)
    else .error .noent
  openat d name := if !d && name = ['l'] && there then .ok true else .error .noent
  openFull _ := .error .noent

theorem linkProject_tree : linkProject.Tree where
  nodup := by decide
  names := by decide
  depth := ⟨Int.toNat, by decide⟩

theorem openedAt_linkProject {there : Bool} {mtime : Int × Int} {d : TupId} {f : Option Bool}
    (h : OpenedAt (linkDisk there mtime) linkProject false 2 d f) :
    (d = 2 ∧ f = some false) ∨ (d = 3 ∧ f = if there then some true else none) ∨
      (d = 4 ∧ f = none) := by
  induction h with
  | top => exact .inl ⟨rfl, rfl⟩
  | @entry d f t _ ht hdt ih =>
    subst hdt
    have hcases : ∀ t ∈ linkNodes, t.dt = 2 → t.tupid = 3 ∧ t.name = ['l'] := by decide
    have hcases' : ∀ t ∈ linkNodes, t.dt = 3 → t.tupid = 4 ∧ t.name = ['f'] := by decide
    have hcases'' : ∀ t ∈ linkNodes, t.dt ≠ 4 := by decide
    rcases ih with ⟨hdt, rfl⟩ | ⟨hdt, rfl⟩ | ⟨hdt, -⟩
    · obtain ⟨hid, hname⟩ := hcases t ht hdt
      rw [hid, hname]
      exact .inr (.inl ⟨rfl, by cases there <;> rfl⟩)
    · obtain ⟨hid, hname⟩ := hcases' t ht hdt
      rw [hid, hname]
      exact .inr (.inr ⟨rfl, by cases there <;> rfl⟩)
    · exact absurd hdt (hcases'' t ht)

/-- A file that is reached through a symlink has changed. -/
theorem fullScanDir_link : ∃ n, ∀ fuel, n ≤ fuel → ∃ db' head,
    fullScanDir (linkDisk true (9, 0)) fuel (some false) 2 (linkProject, []) = some (db', head) ∧
      TimesRight (linkDisk true (9, 0)) db' false 2 ∧
        ChangesFlagged (linkDisk true (9, 0)) linkProject db' false 2 := by
  have hhidden : NothingHidden (linkDisk true (9, 0)) linkProject false 2 := by
    rintro - f hloc x hx rfl hleads - y hy hydt
    rcases openedAt_linkProject hloc with ⟨hdt, rfl⟩ | ⟨hdt, rfl⟩ | ⟨hdt, rfl⟩
    · have hname : ∀ t ∈ linkNodes, t.dt = 2 → t.name = ['l'] := by decide
      rw [hname x hx hdt] at hleads
      cases hleads
    · have hid : ∀ t ∈ linkNodes, t.dt = 3 → ∀ u ∈ linkNodes, u.dt ≠ t.tupid := by decide
      exact absurd hydt (hid x hx hdt y hy)
    · have hno : ∀ t ∈ linkNodes, t.dt ≠ 4 := by decide
      exact absurd hdt (hno x hx)
  obtain ⟨n, hn⟩ := fullScanDir_iff linkProject_tree (linkDisk true (9, 0)) false 2
  refine ⟨n, fun fuel hle => ?_⟩
  obtain ⟨db', head, hrun, hiff⟩ := hn fuel hle
  exact ⟨db', head, hrun, hiff.2 hhidden⟩

/-- A symlink is broken: what was below it keeps its time. -/
theorem fullScanDir_broken_link : ¬ ∀ (db : Db) (before now : ExtDisk Bool) (root : Bool) (slash : TupId),
    db.Tree → TimesRight before db root slash → ∀ fuel db' head,
      fullScanDir now fuel (some root) slash (db, []) = some (db', head) →
        TimesRight now db' root slash := by
  intro h
  have hbefore : TimesRight (linkDisk true (7, 0)) linkProject false 2 := by
    rintro - f hloc t ht rfl
    rcases openedAt_linkProject hloc with ⟨hdt, rfl⟩ | ⟨hdt, rfl⟩ | ⟨hdt, rfl⟩
    · have hrow : ∀ t ∈ linkNodes, t.dt = 2 → t.mtime = (5, 0) ∧ t.name = ['l'] := by decide
      obtain ⟨hmtime, hname⟩ := hrow t ht hdt
      rw [hmtime, hname]
      rfl
    · have hrow : ∀ t ∈ linkNodes, t.dt = 3 → t.mtime = (7, 0) ∧ t.name = ['f'] := by decide
      obtain ⟨hmtime, hname⟩ := hrow t ht hdt
      rw [hmtime, hname]
      rfl
    · have hno : ∀ t ∈ linkNodes, t.dt ≠ 4 := by decide
      exact absurd hdt (hno t ht)
  have htimes := h linkProject (linkDisk true (7, 0)) (linkDisk false (7, 0)) false 2 linkProject_tree
    hbefore 1 linkProject [3] rfl
  have hloc : OpenedAt (linkDisk false (7, 0)) linkProject false 2 3 none :=
    .entry (t := linkNode) .top (by decide) rfl
  exact absurd (htimes 3 none hloc fileNode (by decide) rfl) (by decide)

end Metatup
