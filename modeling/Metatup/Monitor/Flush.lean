import Metatup.Db.FileNode
import Metatup.Monitor.Queue

/-!
# Flushing the queue of the monitor

Handling a queued event settles its touches: what the database then has for a file is the record that
the touches leave of it.

* `Shows`: what the database has for a file, next to the database before the flush.
* `Shows.look`, `Shows.change`, `Shows.drop`: the three kinds of touches.
* `flushQueue_total`: the queue is flushed, and every file shows the record that its pending touches
  leave.
-/

namespace Metatup

open Lib

/-! ### What the database has for a file -/

/-- The nodes that can be flagged as dependents are of the kinds they were. -/
def KindsKept (db₀ db : Db) : Prop :=
  ∀ c type, type = .cmd ∨ type = .group ∨ type = .dir → nodeType db₀ c = some type →
    nodeType db c = some type

/-- A kind of node that is flagged as a dependent. -/
def FlaggedKind (db₀ : Db) (c : TupId) : Prop :=
  ∃ type, (type = .cmd ∨ type = .group ∨ type = .dir) ∧ nodeType db₀ c = some type

/-- The file at `q` as the database has it when it started as `db₀`: `there` is a node that is a
file, `dirty` one in the modify list, and once the file that there was at first has been `lost` its
dependents have been flagged. -/
structure Shows (db₀ db : Db) (q : TupId × Text) (s : PlaceState) : Prop where
  plain : ∀ t ∈ db.node, t.place = q → t.Plain
  there : s.there = true ↔ ∃ t ∈ db.node, t.place = q ∧ t.type = .file
  dirty : s.there = true → s.dirty = true →
    ∃ t ∈ db.node, t.place = q ∧ t.type = .file ∧ t.tupid ∈ db.flags.modify
  kept : s.lost = false → ∀ t₀ ∈ db₀.node, t₀.place = q → t₀.type = .file →
    FileRow t₀.tupid q db ∧
      ∀ c, FlaggedKind db₀ c → NormalAdj db₀ t₀.tupid c → NormalAdj db t₀.tupid c
  noted : s.lost = true → ∀ t₀ ∈ db₀.node, t₀.place = q → t₀.type = .file →
    (q.2 = tupConfig → ConfigNoted t₀.tupid q db) ∧ (q.2 ≠ tupConfig → Noted db₀ t₀.tupid db)

section

variable {db₀ db db' : Db} {p q : TupId × Text} {cut : Set TupId} {s : PlaceState} {i c : TupId}
  {fuel : ℕ} {mtime : Int × Int}

/-- A node of a kind that is flagged is no file at `p`. -/
theorem FlaggedKind.not_cut (hc : FlaggedKind db₀ c) (hk : KindsKept db₀ db) (htree : db.Tree)
    (hcut : ∀ c ∈ cut, FileRow c p db) : c ∉ cut := by
  intro hmem
  obtain ⟨t, ht, -, hfile, rfl⟩ := hcut c hmem
  obtain ⟨type, htype, hkind⟩ := hc
  have hkind' := hk _ type htype hkind
  rw [nodeType_of_tupEntryAdd (htree.tupEntryAdd_of_mem ht), hfile] at hkind'
  cases Option.some.inj hkind'
  simp at htype

theorem Noted.elsewhere (h : Noted db₀ i db) (hels : Elsewhere p cut db db') (hk : KindsKept db₀ db)
    (htree : db.Tree) (hcut : ∀ c ∈ cut, FileRow c p db) : Noted db₀ i db' where
  cmds c hl hc := by
    refine hels.modify c (h.cmds c hl hc) (FlaggedKind.not_cut ?_ hk htree hcut)
    rcases hc with hc | hc
    · exact ⟨_, .inl rfl, hc⟩
    · exact ⟨_, .inr (.inl rfl), hc⟩
  dirs d hl hd := hels.create d (h.dirs d hl hd)
    (FlaggedKind.not_cut ⟨_, .inr (.inr rfl), hd⟩ hk htree hcut)

theorem KindsKept.elsewhere (h : KindsKept db₀ db) (hels : Elsewhere p cut db db') :
    KindsKept db₀ db' := fun c type htype hc => hels.kinds c type htype (h c type htype hc)

/-- What is done about another place does not show. -/
theorem Shows.elsewhere (h : Shows db₀ db q s) (hels : Elsewhere p cut db db') (hqp : q ≠ p)
    (hk : KindsKept db₀ db) (htree : db.Tree) (hcut : ∀ c ∈ cut, FileRow c p db) :
    Shows db₀ db' q s := by
  have hrow : ∀ t, t.place = q → t.Plain → (t ∈ db'.node ↔ t ∈ db.node) := fun t ht hplain =>
    hels.rows t (ht ▸ hqp) hplain
  have hnot : ∀ t ∈ db.node, t.place = q → t.tupid ∉ cut := by
    intro t ht hplace hmem
    obtain ⟨u, hu, hup, -, hid⟩ := hcut _ hmem
    obtain rfl := htree.eq_of_tupid hu ht hid
    exact hqp (hplace.symm.trans hup)
  constructor
  · intro t ht hplace
    by_contra hplain
    obtain ⟨u, hu, hup, hunplain⟩ := hels.others t ht (hplace ▸ hqp) hplain
    exact hunplain (h.plain u hu (hup.trans hplace))
  · rw [h.there]
    constructor
    · rintro ⟨t, ht, hplace, hfile⟩
      exact ⟨t, (hrow t hplace (.inl hfile)).2 ht, hplace, hfile⟩
    · rintro ⟨t, ht, hplace, hfile⟩
      exact ⟨t, (hrow t hplace (.inl hfile)).1 ht, hplace, hfile⟩
  · intro hthere hdirty
    obtain ⟨t, ht, hplace, hfile, hmod⟩ := h.dirty hthere hdirty
    exact ⟨t, (hrow t hplace (.inl hfile)).2 ht, hplace, hfile, hels.modify _ hmod (hnot t ht hplace)⟩
  · intro hlost t₀ ht₀ hplace₀ hfile₀
    obtain ⟨⟨t, ht, hplace, hfile, hid⟩, hlinks⟩ := h.kept hlost t₀ ht₀ hplace₀ hfile₀
    refine ⟨⟨t, (hrow t hplace (.inl hfile)).2 ht, hplace, hfile, hid⟩, fun c hc hl => ?_⟩
    refine hels.links _ _ (hlinks c hc hl) ?_ (hc.not_cut hk htree hcut)
    rw [← hid]
    exact hnot t ht hplace
  · intro hlost t₀ ht₀ hplace₀ hfile₀
    obtain ⟨hconfig, hnoted⟩ := h.noted hlost t₀ ht₀ hplace₀ hfile₀
    refine ⟨fun hname => ?_, fun hname => (hnoted hname).elsewhere hels hk htree hcut⟩
    obtain ⟨hname, ⟨t, ht, hplace, hid⟩, hflag⟩ := hconfig hname
    refine ⟨hname, ⟨t, (hrow t hplace (h.plain t ht hplace)).2 ht, hplace, hid⟩, ?_⟩
    apply hels.config _ hflag
    rw [← hid]
    exact hnot t ht hplace

/-- A file that is there has been looked at. -/
theorem Shows.seen {force : Bool} (h : Shows db₀ db p s) (htree : db'.Tree)
    (hels : Elsewhere p ∅ db db') (hseen : FileSeen force p db db') (hk : KindsKept db₀ db)
    (htree₀ : db.Tree) : Shows db₀ db' p (if force then s.changed else s.found) := by
  obtain ⟨t, ht, hplace, hfile, hold⟩ := hseen
  have hone : ∀ u ∈ db'.node, u.place = p → u = t := fun u hu hup =>
    htree.eq_of_place hu ht (hup.trans hplace.symm)
  have hnocut : ∀ c ∈ (∅ : Set TupId), FileRow c p db := fun c hc => absurd hc (Set.notMem_empty c)
  have hthere : (if force then s.changed else s.found).there = true := by
    cases force <;> rfl
  have hlost : (if force then s.changed else s.found).lost = s.lost := by
    cases force <;> rfl
  constructor
  · intro u hu hup
    rw [hone u hu hup]
    exact .inl hfile
  · exact ⟨fun _ => ⟨t, ht, hplace, hfile⟩, fun _ => hthere⟩
  · intro _ hdirty
    refine ⟨t, ht, hplace, hfile, ?_⟩
    cases force with
    | true =>
      obtain ⟨u, hu, hup, -⟩ := h.there.1 hdirty
      exact (hold u hu hup).2 (.inl rfl)
    | false =>
      have hboth : s.there = true ∧ s.dirty = true := Bool.and_eq_true_iff.1 hdirty
      obtain ⟨u, hu, hup, -, hmod⟩ := h.dirty hboth.1 hboth.2
      rw [(hold u hu hup).1]
      exact hels.modify _ hmod (Set.notMem_empty _)
  · intro hl t₀ ht₀ hplace₀ hfile₀
    rw [hlost] at hl
    obtain ⟨⟨u, hu, hup, -, hid⟩, hlinks⟩ := h.kept hl t₀ ht₀ hplace₀ hfile₀
    refine ⟨⟨t, ht, hplace, hfile, (hold u hu hup).1.trans hid⟩, fun c hc hcl => ?_⟩
    exact hels.links _ _ (hlinks c hc hcl) (Set.notMem_empty _) (Set.notMem_empty _)
  · intro hl t₀ ht₀ hplace₀ hfile₀
    rw [hlost] at hl
    obtain ⟨hconfig, hnoted⟩ := h.noted hl t₀ ht₀ hplace₀ hfile₀
    refine ⟨fun hname => ?_, fun hname => (hnoted hname).elsewhere hels hk htree₀ hnocut⟩
    obtain ⟨hname, ⟨u, hu, hup, hid⟩, hflag⟩ := hconfig hname
    exact ⟨hname, ⟨t, ht, hplace, (hold u hu hup).1.trans hid⟩, hels.config _ hflag (Set.notMem_empty _)⟩

/-- Nothing is forgotten where nothing is known. -/
theorem Shows.dropped_of_absent (h : Shows db₀ db p s) (hs : s.there = false) :
    Shows db₀ db p s.dropped where
  plain := h.plain
  there := by
    rw [← h.there, hs]
    rfl
  dirty ht := by cases ht
  kept hl := by
    refine h.kept ?_
    simpa [PlaceState.dropped, hs] using hl
  noted hl := by
    refine h.noted ?_
    simpa [PlaceState.dropped, hs] using hl

/-- What a touch of the file at `p` leads to: the database is still sound, nothing else shows, and the
file shows `s`. -/
structure FileTouched (db₀ : Db) (p : TupId × Text) (s : PlaceState) (db db' : Db) : Prop where
  sound : db'.Sound
  elsewhere : ∃ cut, Elsewhere p cut db db' ∧ ∀ c ∈ cut, FileRow c p db
  shows : Shows db₀ db' p s

/-- A file goes: `tup_file_del`. -/
theorem Shows.drop (h : Shows db₀ db p s) (hsound : db.Sound) (hk : KindsKept db₀ db)
    (hdt : HasNode db p.1) (fuel : ℕ) : ∃ db' b, tupFileDel (fuel + 1) db p.1 p.2 = some (db', b) ∧
      FileTouched db₀ p s.dropped db db' := by
  obtain ⟨dtent, hdtent⟩ := tupEntryAdd_of_hasNode hdt
  unfold tupFileDel
  simp only [hdtent, Option.bind_eq_bind, Option.bind_some]
  rcases hsel : tupDbSelectTent db p.1 p.2 with _ | t
  · have hfree := select_eq_none_iff.1 hsel
    refine ⟨db, false, rfl, hsound, ⟨∅, .refl _ _ _, fun c hc => absurd hc (Set.notMem_empty c)⟩, ?_⟩
    apply h.dropped_of_absent
    rw [← Bool.not_eq_true, h.there]
    rintro ⟨t, ht, hplace, -⟩
    exact hfree t ht hplace
  · obtain ⟨ht, hplace⟩ := (select_eq_some_iff hsound.tree).1 hsel
    obtain rfl : t.place = p := hplace
    let m₁ := if t.place.2 = gitignore then db.addCreate t.place.1 else db
    let m := if t.place.2 = tupignore then m₁.addCreate t.place.1 else m₁
    have hk₁ : KeepsRows db m₁ := .ite (.addCreate _ _) (.refl _)
    have hkm : KeepsRows db m := hk₁.trans (.ite (.addCreate _ _) (.refl _))
    have hels₁ : ∀ cut, Elsewhere t.place cut db m₁ := fun cut => .ite (.addCreate _ _) (.refl _ _ _)
    have helsm : ∀ cut, Elsewhere t.place cut db m := fun cut =>
      (hels₁ cut).trans (.ite (.addCreate _ _) (.refl _ _ _))
    have hsoundm : m.Sound := hsound.shrinks (.of_keepsRows hkm)
    have htm : t ∈ m.node := by
      rw [hkm.node]
      exact ht
    obtain ⟨db', b, hrun, hsound', hels, hghost, hconfig, hnoted⟩ :=
      delIdType_plain hsoundm htm (h.plain t ht rfl) ((hkm.hasNode _).2 hdt) fuel
    have hcut : ∀ c ∈ {c | t.type = .file ∧ c = t.tupid}, FileRow c t.place db := by
      rintro c ⟨hfile, rfl⟩
      exact ⟨t, ht, rfl, hfile, rfl⟩
    have hall := (helsm _).trans hels
    refine ⟨db', b, hrun, hsound', ⟨_, hall, hcut⟩, ?_, ?_, ?_, ?_, ?_⟩
    · intro u hu hup
      exact .inr (hghost u hu hup)
    · constructor
      · intro hf
        cases hf
      · rintro ⟨u, hu, hup, hfile⟩
        rw [hghost u hu hup] at hfile
        cases hfile
    · intro hf
      cases hf
    · intro hl t₀ ht₀ hplace₀ hfile₀
      obtain ⟨hlost, hthere⟩ := Bool.or_eq_false_iff.1 hl
      obtain ⟨⟨u, hu, hup, hfile, -⟩, -⟩ := h.kept hlost t₀ ht₀ hplace₀ hfile₀
      rw [h.there.2 ⟨u, hu, hup, hfile⟩] at hthere
      cases hthere
    · intro hl t₀ ht₀ hplace₀ hfile₀
      -- the node is the one that there was at first, or it was lost before
      by_cases hlost : s.lost = true
      · obtain ⟨hconfig₀, hnoted₀⟩ := h.noted hlost t₀ ht₀ hplace₀ hfile₀
        refine ⟨fun hname => ?_, fun hname => (hnoted₀ hname).elsewhere hall hk hsound.tree hcut⟩
        obtain ⟨-, ⟨u, hu, hup, hid⟩, -⟩ := hconfig₀ hname
        obtain rfl := hsound.tree.eq_of_place hu ht hup
        rw [← hid]
        exact hconfig hname
      · rw [Bool.not_eq_true] at hlost
        obtain ⟨⟨u, hu, hup, hfile, hid⟩, hlinks⟩ := h.kept hlost t₀ ht₀ hplace₀ hfile₀
        obtain rfl := hsound.tree.eq_of_place hu ht hup
        rw [← hid]
        refine ⟨hconfig, fun hname => ?_⟩
        have hnotedm := hnoted hfile hname
        have hlinkm : ∀ c, NormalAdj db u.tupid c → NormalAdj m u.tupid c := fun c hc =>
          (helsm ∅).links _ _ hc (Set.notMem_empty _) (Set.notMem_empty _)
        have hkm' : KindsKept db₀ m := hk.elsewhere (helsm ∅)
        rw [← hid] at hlinks
        constructor
        · intro c hl hc
          rcases hc with hc | hc
          · refine hnotedm.cmds c (hlinkm c (hlinks c ⟨_, .inl rfl, hc⟩ hl)) (.inl ?_)
            exact hkm' c _ (.inl rfl) hc
          · refine hnotedm.cmds c (hlinkm c (hlinks c ⟨_, .inr (.inl rfl), hc⟩ hl)) (.inr ?_)
            exact hkm' c _ (.inr (.inl rfl)) hc
        · intro d hl hd
          refine hnotedm.dirs d (hlinkm d (hlinks d ⟨_, .inr (.inr rfl), hd⟩ hl)) ?_
          exact hkm' d _ (.inr (.inr rfl)) hd

/-- A file that is there is looked at: `tup_file_mod_mtime`. -/
theorem Shows.modMtime (h : Shows db₀ db p s) (hsound : db.Sound) (hk : KindsKept db₀ db)
    (hdt : HasNode db p.1) (hfuel : generatedDirs db < fuel) (mtime : Int × Int)
    (force ignoreGenerated : Bool) :
    ∃ db' i b, tupFileModMtime fuel db p.1 p.2 mtime force ignoreGenerated = some (db', i, b) ∧
      FileTouched db₀ p (if force then s.changed else s.found) db db' := by
  obtain ⟨db', i, b, hrun, hsound', hels, hseen⟩ :=
    @fileModMtime_plain db p fuel mtime hsound hdt h.plain hfuel force ignoreGenerated
  exact ⟨db', i, b, hrun, hsound', ⟨∅, hels, fun c hc => absurd hc (Set.notMem_empty c)⟩,
    h.seen hsound'.tree hels hseen hk hsound.tree⟩

end

/-! ### Watched directories -/

section

variable {droot : DirCache} {wd wd' : Int} {dt : TupId}

theorem mem_of_lookupWd (h : droot.lookupWd wd = some dt) : (wd, dt) ∈ droot.entries := by
  obtain ⟨⟨a, b⟩, hx, rfl⟩ := Option.map_eq_some_iff.1 h
  have ha : a = wd := by simpa using List.find?_some hx
  exact ha ▸ List.mem_of_find?_eq_some hx

/-- A directory has one watch. -/
theorem lookupWd_injective (h : droot.lookupWd wd = some dt) (h' : droot.lookupWd wd' = some dt) :
    wd = wd' :=
  (Prod.ext_iff.1 (List.inj_on_of_nodup_map droot.dt_nodup (mem_of_lookupWd h) (mem_of_lookupWd h')
    rfl)).1

theorem lookupDt_of_lookupWd (h : droot.lookupWd wd = some dt) : droot.lookupDt dt = some wd := by
  unfold DirCache.lookupDt
  rw [(find_eq_some_key droot.dt_nodup).2 ⟨mem_of_lookupWd h, rfl⟩]
  rfl

theorem wd_ne_of_lookupWd (h : droot.lookupWd wd = some dt) : wd ≠ -1 := by
  have hpos := droot.wd_nonneg _ (mem_of_lookupWd h)
  dsimp only at hpos
  omega

end

/-- The files of the watched directories as they are on disk. -/
abbrev Disk := Int × Text → Option (Int × Int)

/-- What `lstat` finds in the directories. -/
def Disk.lstat (disk : Disk) (droot : DirCache) : Lstat := fun dt name =>
  (droot.lookupDt dt).bind fun wd => disk (wd, name)

/-- Whether a file is there. -/
def Disk.here (disk : Disk) (p : Int × Text) : Bool := (disk p).isSome

/-! ### Flushing -/

/-- In the course of a flush the files show their records. -/
structure FlushInv (droot : DirCache) (files : Set (Int × Text)) (db₀ : Db) (fuel : ℕ)
    (st : Int × Text → PlaceState) (db : Db) : Prop where
  sound : db.Sound
  kinds : KindsKept db₀ db
  watched : ∀ p ∈ files, ∃ dt, droot.lookupWd p.1 = some dt ∧ IsFolder db dt
  dirs : generatedDirs db < fuel
  shows : ∀ p ∈ files, ∀ dt, droot.lookupWd p.1 = some dt → Shows db₀ db (dt, p.2) (st p)

section

variable {droot : DirCache} {files : Set (Int × Text)} {db₀ db db' : Db} {fuel : ℕ}
  {st : Int × Text → PlaceState} {disk : Disk} {p : Int × Text} {dt : TupId}

/-- A touch of a file shows nowhere else. -/
theorem FlushInv.touched (h : FlushInv droot files db₀ fuel st db) (hdt : droot.lookupWd p.1 = some dt)
    {s : PlaceState} (ht : FileTouched db₀ (dt, p.2) s db db') :
    FlushInv droot files db₀ fuel (Function.update st p s) db' := by
  obtain ⟨cut, hels, hcut⟩ := ht.elsewhere
  refine ⟨ht.sound, h.kinds.elsewhere hels, fun q hq => ?_, lt_of_le_of_lt hels.dirs h.dirs,
    fun q hq dt' hdt' => ?_⟩
  · obtain ⟨dt', hdt', hfolder⟩ := h.watched q hq
    exact ⟨dt', hdt', hels.folders _ hfolder⟩
  · by_cases hqp : q = p
    · subst hqp
      rw [hdt] at hdt'
      obtain rfl := Option.some.inj hdt'
      rw [Function.update_self]
      exact ht.shows
    · rw [Function.update_of_ne hqp]
      refine (h.shows q hq dt' hdt').elsewhere hels ?_ h.kinds h.sound.tree hcut
      intro heq
      obtain ⟨hd, hname⟩ := Prod.ext_iff.1 heq
      dsimp only at hd hname
      subst hd
      exact hqp (Prod.ext (lookupWd_injective hdt' hdt) hname)

theorem FlushInv.hasNode (h : FlushInv droot files db₀ fuel st db) (hp : p ∈ files)
    (hdt : droot.lookupWd p.1 = some dt) : HasNode db dt := by
  obtain ⟨dt', hdt', hfolder⟩ := h.watched p hp
  rw [hdt] at hdt'
  obtain rfl := Option.some.inj hdt'
  exact hfolder.hasNode

theorem lstat_of_lookupWd (hdt : droot.lookupWd p.1 = some dt) : disk.lstat droot dt p.2 = disk p := by
  unfold Disk.lstat
  rw [lookupDt_of_lookupWd hdt]
  rfl

/-- A file is dropped. -/
theorem FlushInv.drop (h : FlushInv droot files db₀ fuel st db) (hp : p ∈ files)
    (hdt : droot.lookupWd p.1 = some dt) (disk : Disk) : ∃ db' b, tupFileDel fuel db dt p.2 = some (db', b) ∧
      FlushInv droot files db₀ fuel (settlePlaces disk.here st [(p, .drop)]) db' := by
  obtain ⟨n, rfl⟩ : ∃ n, fuel = n + 1 := ⟨fuel - 1, by have hd := h.dirs; omega⟩
  obtain ⟨db', b, hrun, ht⟩ := (h.shows p hp dt hdt).drop h.sound h.kinds (h.hasNode hp hdt) n
  refine ⟨db', b, hrun, ?_⟩
  rw [settlePlaces_singleton]
  exact h.touched hdt ht

/-- A file is looked at for a change. -/
theorem FlushInv.change (h : FlushInv droot files db₀ fuel st db) (hp : p ∈ files)
    (hdt : droot.lookupWd p.1 = some dt) (disk : Disk) :
    ∃ db' b, tupFileMod (disk.lstat droot) fuel db dt p.2 = some (db', b) ∧
      FlushInv droot files db₀ fuel (settlePlaces disk.here st [(p, .change)]) db' := by
  unfold tupFileMod
  rw [lstat_of_lookupWd hdt]
  rcases hdisk : disk p with _ | mtime
  · obtain ⟨db', b, hrun, hinv⟩ := h.drop hp hdt disk
    refine ⟨db', b, hrun, ?_⟩
    rw [settlePlaces_singleton] at hinv ⊢
    have hhere : disk.here p = false := by
      unfold Disk.here
      rw [hdisk]
      rfl
    rw [hhere] at hinv ⊢
    exact hinv
  · obtain ⟨db', i, b, hrun, ht⟩ := (h.shows p hp dt hdt).modMtime h.sound h.kinds
      (h.hasNode hp hdt) h.dirs mtime true true
    refine ⟨db', b, by simp only [hrun]; rfl, ?_⟩
    have hhere : disk.here p = true := by
      unfold Disk.here
      rw [hdisk]
      rfl
    rw [settlePlaces_singleton, hhere]
    exact h.touched hdt ht

/-- A file is looked at. -/
theorem FlushInv.look (h : FlushInv droot files db₀ fuel st db) (hp : p ∈ files)
    (hdt : droot.lookupWd p.1 = some dt) (disk : Disk) :
    ∃ db', watchFile (disk.lstat droot) fuel db dt p.2 = some db' ∧
      FlushInv droot files db₀ fuel (settlePlaces disk.here st [(p, .look)]) db' := by
  unfold watchFile
  rw [lstat_of_lookupWd hdt]
  rcases hdisk : disk p with _ | mtime
  · refine ⟨db, rfl, ?_⟩
    have hhere : disk.here p = false := by
      unfold Disk.here
      rw [hdisk]
      rfl
    rw [settlePlaces_singleton, hhere]
    have hsame : settle false (st p) .look = st p := rfl
    rw [hsame, Function.update_eq_self]
    exact h
  · obtain ⟨db', i, b, hrun, ht⟩ := (h.shows p hp dt hdt).modMtime h.sound h.kinds
      (h.hasNode hp hdt) h.dirs mtime false false
    refine ⟨db', by simp only [hrun]; rfl, ?_⟩
    have hhere : disk.here p = true := by
      unfold Disk.here
      rw [hdisk]
      rfl
    rw [settlePlaces_singleton, hhere]
    exact h.touched hdt ht

/-- The event is on one of the files, and so is the one it belongs to. -/
def EventOn (files : Set (Int × Text)) (m : MonitorEvent) : Prop :=
  m.file ∈ files ∧ ∀ mfe, m.fromEvent = some mfe → mfe.e.file ∈ files

/-- A file whose node is not there has gone, so that nothing has to be done about its change. -/
theorem FlushInv.change_of_none (h : FlushInv droot files db₀ fuel (settlePlaces disk.here st
    [(p, .look)]) db) (hp : p ∈ files) (hdt : droot.lookupWd p.1 = some dt)
    (hnone : ¬ (tupDbSelectTent db dt p.2).any (·.type ≠ .generated) = true) :
    FlushInv droot files db₀ fuel (settlePlaces disk.here st [(p, .look), (p, .change)]) db := by
  have hshows := h.shows p hp dt hdt
  have hfree : (settlePlaces disk.here st [(p, .look)] p).there = false := by
    rw [← Bool.not_eq_true]
    intro hthere
    obtain ⟨t, ht, hplace, hfile⟩ := hshows.there.1 hthere
    apply hnone
    rw [(select_eq_some_iff h.sound.tree).2 ⟨ht, hplace⟩, Option.any_some, hfile]
    decide
  have hhere : disk.here p = false := by
    rw [← Bool.not_eq_true]
    intro hhere
    rw [settlePlaces_singleton, Function.update_self, hhere] at hfree
    cases hfree
  have htouched : FileTouched db₀ (dt, p.2) (settlePlaces disk.here st [(p, .look)] p).dropped db db :=
    ⟨h.sound, ⟨∅, .refl _ _ _, fun c hc => absurd hc (Set.notMem_empty c)⟩,
      hshows.dropped_of_absent hfree⟩
  have hinv := h.touched hdt htouched
  rw [show [(p, Touch.look), (p, Touch.change)] = [(p, .look)] ++ [(p, .change)] from rfl,
    settlePlaces_append]
  generalize settlePlaces disk.here st [(p, .look)] = st₁ at hinv ⊢
  rw [settlePlaces_singleton, hhere]
  exact hinv

/-- Handling an event settles its touches. -/
theorem FlushInv.handleEvent {m : MonitorEvent} (h : FlushInv droot files db₀ fuel st db)
    (hm : EventOn files m) (disk : Disk) :
    ∃ db' b, handleEvent (disk.lstat droot) droot fuel db m = some (db', b) ∧
      FlushInv droot files db₀ fuel (settlePlaces disk.here st m.touches) db' := by
  obtain ⟨dt, hdt, hfolder⟩ := h.watched _ hm.1
  obtain ⟨dtent, hdtent⟩ := tupEntryAdd_of_hasNode hfolder.hasNode
  have hwd : droot.lookupWd m.e.wd = some dt := hdt
  have hname : m.e.name = m.file.2 := rfl
  -- a new file
  have hcreate : ∀ moved, ∃ db' b, handleCreate (disk.lstat droot) fuel db dt m.file.2 moved =
      some (db', b) ∧ FlushInv droot files db₀ fuel (settlePlaces disk.here st
        (if moved then [(m.file, .look), (m.file, .change)] else [(m.file, .look)])) db' := by
    intro moved
    obtain ⟨db₁, hrun₁, hinv₁⟩ := h.look hm.1 hdt disk
    obtain ⟨dtent₁, hdtent₁⟩ := tupEntryAdd_of_hasNode (hinv₁.hasNode hm.1 hdt)
    unfold handleCreate
    simp only [hrun₁, hdtent₁, Option.bind_eq_bind, Option.bind_some]
    cases moved with
    | false =>
      simp only [Bool.false_eq_true, if_false]
      split
      · exact ⟨db₁, true, rfl, hinv₁⟩
      · exact ⟨db₁, false, rfl, hinv₁⟩
    | true =>
      simp only [if_true]
      split
      · obtain ⟨db₂, b₂, hrun₂, hinv₂⟩ := hinv₁.change hm.1 hdt disk
        rw [← settlePlaces_append] at hinv₂
        exact ⟨db₂, true, by simp only [hrun₂, Option.bind_some]; rfl, hinv₂⟩
      · next hnone => exact ⟨db₁, false, rfl, hinv₁.change_of_none hm.1 hdt hnone⟩
  have hmodify : ∃ db' b, handleModify (disk.lstat droot) fuel db dt m.file.2 = some (db', b) ∧
      FlushInv droot files db₀ fuel (settlePlaces disk.here st [(m.file, .change)]) db' := by
    obtain ⟨db₁, b₁, hrun₁, hinv₁⟩ := h.change hm.1 hdt disk
    unfold handleModify
    simp only [hdtent, hrun₁, Option.bind_eq_bind, Option.bind_some]
    exact ⟨db₁, _, rfl, hinv₁⟩
  unfold Metatup.handleEvent MonitorEvent.touches
  simp only [hwd, hname, Option.bind_eq_bind, Option.bind_some]
  rcases hmask : m.e.mask
  case movedTo =>
    rcases hsome : m.fromEvent with _ | mfe
    · exact hcreate true
    · obtain ⟨fromDt, hfromDt, hfromFolder⟩ := h.watched _ (hm.2 mfe hsome)
      obtain ⟨fromTent, hfromTent⟩ := tupEntryAdd_of_hasNode hfromFolder.hasNode
      obtain ⟨db₁, b₁, hrun₁, hinv₁⟩ := h.change hm.1 hdt disk
      obtain ⟨db₂, b₂, hrun₂, hinv₂⟩ := hinv₁.drop (hm.2 mfe hsome) hfromDt disk
      rw [← settlePlaces_append] at hinv₂
      refine ⟨db₂, true, ?_, hinv₂⟩
      have hfromWd : droot.lookupWd mfe.e.wd = some fromDt := hfromDt
      have hfromName : mfe.e.name = mfe.e.file.2 := rfl
      unfold handleMove
      simp only [hfromWd, hfromName, hfromTent, hdtent, hrun₁, hrun₂, Option.bind_eq_bind,
        Option.bind_some]
      rfl
  case create => exact hcreate false
  case modify => exact hmodify
  case attrib => exact hmodify
  case delete => exact h.drop hm.1 hdt disk
  case movedFrom => exact h.drop hm.1 hdt disk
  case none => exact ⟨db, false, rfl, h⟩
  case overflow => exact ⟨db, false, rfl, h⟩

/-- The queue is flushed, and every file shows the record that its pending touches leave. -/
theorem flushQueue_total {mon : Monitor} (h : FlushInv droot files db₀ fuel st db)
    (hm : ∀ m ∈ mon.eventList, EventOn files m) (disk : Disk) :
    ∃ r, flushQueue (disk.lstat droot) droot fuel db mon = some r ∧ r.overflow = false ∧
      FlushInv droot files db₀ fuel (fun p => settleAll (disk.here p) (st p) (pending p mon.eventList))
        r.db := by
  have key : ∀ (queue : List MonitorEvent) (st : Int × Text → PlaceState) (r : Flushed),
      (∀ m ∈ queue, EventOn files m) → r.overflow = false → FlushInv droot files db₀ fuel st r.db →
      ∃ r', queue.foldlM (flushEvent (disk.lstat droot) droot fuel) r = some r' ∧
        r'.overflow = false ∧ FlushInv droot files db₀ fuel
          (settlePlaces disk.here st (queue.flatMap MonitorEvent.touches)) r'.db := by
    intro queue
    induction queue with
    | nil => exact fun st r _ hover hinv => ⟨r, rfl, hover, hinv⟩
    | cons m queue ih =>
      intro st r hon hover hinv
      have hmon := hon m List.mem_cons_self
      have hrest : ∀ x ∈ queue, EventOn files x := fun x hx => hon x (List.mem_cons_of_mem m hx)
      obtain ⟨dt, hdt, -⟩ := hinv.watched _ hmon.1
      have hwd : m.e.wd ≠ -1 := wd_ne_of_lookupWd hdt
      rw [List.foldlM_cons, List.flatMap_cons, settlePlaces_append]
      unfold flushEvent
      rw [if_neg hwd]
      by_cases hnone : m.e.mask = .none
      · have htouches : m.touches = [] := by
          unfold MonitorEvent.touches
          rw [hnone]
        rw [if_pos hnone, htouches, settlePlaces_nil]
        exact ih st r hrest hover hinv
      · obtain ⟨db', b, hrun, hinv'⟩ := hinv.handleEvent hmon disk
        rw [if_neg hnone, hrun]
        exact ih _ { r with db := db', eventsHandled := r.eventsHandled || b } hrest hover hinv'
  exact key mon.eventList st { db := db } hm rfl h

end

end Metatup
