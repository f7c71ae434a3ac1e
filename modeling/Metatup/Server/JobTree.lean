import Metatup.Lib.Lts
import Metatup.Server.Overlay

/-!
# What a job sees and what it has done

The requests of one job on an ordinary tree in which only its own entries may be changed, compared with
the same requests on the lists of the job.

* `serve`: a request, answered by the kernel or by its handler.
* `Fits`: the requests that the handlers answer as an ordinary tree does.
* `Answers`: what it means to answer so; one lemma for each handler.
* `job_sees_own_tree`: in a run of such requests the job sees the ordinary tree.
-/

namespace Metatup

open Lib FileTree

/-! ### Requests -/

/-- What a job asks for; `made` says whether the file system below can make the temporary file. -/
inductive JobRequest
  | mkdir (p : List PathName)
  | create (p : List PathName) (kind : NodeKind) (made : Bool)
  | symlink (target : Text) (p : List PathName) (made : Bool)
  | rename (p q : List PathName)
  | unlink (p : List PathName)
  | rmdir (p : List PathName)
  | truncate (p : List PathName) (size : ℕ) (made : Bool)
  | getattr (p : List PathName)

/-- The directory of a path, in which a name is to be added. -/
def parentCheck (look : List PathName → Option (Item Content)) (p : List PathName) : Option Reply :=
  match look p.dropLast with
  | some .dir => none
  | some (.leaf _) => some (.err .notdir)
  | none => some (.err .noent)

/-- A path that is to be made. -/
def makeCheck (look : List PathName → Option (Item Content)) (p : List PathName) : Option Reply :=
  if p = [] ∨ (look p).isSome then some (.err .exist) else parentCheck look p

/-- What the kernel answers by itself, from what it has looked up; the other requests are handed to the
file system. A link is followed, so that `truncate` of a link is a request about another path. -/
def kernelCheck (look : List PathName → Option (Item Content)) : JobRequest → Option Reply
  | .mkdir p => makeCheck look p
  | .create p _ _ => makeCheck look p
  | .symlink _ p _ => makeCheck look p
  | .rename p q =>
    match look p with
    | none => some (.err .noent)
    | some i =>
      if p = q then some .done
      else if p <+: q then some (.err .inval)
      else if q <+: p then some (.err .notempty)
      else if (parentCheck look q).isSome then parentCheck look q
      else
        match i, look q with
        | .dir, some (.leaf _) => some (.err .notdir)
        | .leaf _, some .dir => some (.err .isdir)
        | _, _ => none
  | .unlink p =>
    match look p with
    | none => some (.err .noent)
    | some .dir => some (.err .isdir)
    | some (.leaf _) => none
  | .rmdir p =>
    match look p with
    | none => some (.err .noent)
    | some .dir => none
    | some (.leaf _) => some (.err .notdir)
  | .truncate p _ _ =>
    match look p with
    | none => some (.err .noent)
    | some .dir => some (.err .isdir)
    | some (.leaf (.reg _)) => none
    | some (.leaf _) => some (.err .inval)
  | .getattr _ => none

/-- The handler of a request of the job `n`. -/
def handler (host : Host) (n : ℕ) (s : FuseState) : JobRequest → Reply × FuseState
  | .mkdir p => tupFsMkdir s (jobPath n p)
  | .create p kind made => mknodInternal host s (jobPath n p) kind made
  | .symlink target p made => tupFsSymlink s target (jobPath n p) made
  | .rename p q => tupFsRename host s (jobPath n p) (jobPath n q)
  | .unlink p => tupFsUnlink s (jobPath n p)
  | .rmdir p => tupFsRmdir s (jobPath n p)
  | .truncate p size made => tupFsTruncate host s (jobPath n p) size made
  | .getattr p => tupFsGetattr host s (jobPath n p)

/-- A request of the job, answered. -/
def serve (host : Host) (n : ℕ) (s : FuseState) (r : JobRequest) : Reply × FuseState :=
  match kernelCheck (view host n s) r with
  | some reply => (reply, s)
  | none => handler host n s r

/-- The request is about regular paths. -/
def JobRequest.Regular (host : Host) : JobRequest → Prop
  | .mkdir p => RegularPath host p
  | .create p _ _ => RegularPath host p
  | .symlink _ p _ => RegularPath host p
  | .rename p q => RegularPath host p ∧ RegularPath host q
  | .unlink p => RegularPath host p
  | .rmdir p => RegularPath host p
  | .truncate p _ _ => RegularPath host p ∧ host.exclusionMatch (pathText p) = false
  | .getattr p => RegularPath host p

/-! ### The ordinary tree -/

/-- The real directories that the job may write. -/
def mayWrite (host : Host) (p : List PathName) : Bool := host.access (pathText p)

/-- What a request asks of an ordinary tree, if it is to change it. -/
def JobRequest.op : JobRequest → Option (Request PathName Content)
  | .mkdir p => some (.add p .dir)
  | .create p kind made => if made then kind.content.map fun c => .add p (.leaf c) else none
  | .symlink target p made => if made then some (.add p (.leaf (.link target))) else none
  | .rename p q => some (.move p q)
  | .unlink p => some (.remove p)
  | .rmdir p => some (.removeDir p)
  | .truncate p size made => if made then some (.edit p (Content.truncate size)) else none
  | .getattr _ => none

/-- The request succeeds on an ordinary tree. -/
def Succeeds (host : Host) (t : FileTree PathName Content) : JobRequest → Prop
  | .getattr p => (t p).isSome
  | r => ∃ op, r.op = some op ∧ Allows (mayWrite host) t op

/-- The ordinary tree after a request. -/
noncomputable def treeStep (host : Host) (t : FileTree PathName Content) (r : JobRequest) :
    FileTree PathName Content :=
  match r.op with
  | some op => t.perform (mayWrite host) op
  | none => t

/-- The ordinary tree after the requests of a job. -/
noncomputable def treeAfter (host : Host) (rs : List JobRequest) : FileTree PathName Content :=
  rs.foldl (treeStep host) (realTree host)

/-! ### Requests that are answered as on an ordinary tree -/

/-- A directory in which the job may add names. -/
def OpenDir (host : Host) (s : FuseState) (p : List PathName) : Prop :=
  pathText p ∈ s.finfo.tmpdirList ∨ host.access (pathText p) = true

/-- The requests that a handler answers as an ordinary tree does. -/
def Fits (host : Host) (n : ℕ) (s : FuseState) : JobRequest → Prop
  | .mkdir p => OpenDir host s p.dropLast
  | .create p kind made => kind ≠ .other →
    if made then pathText p.dropLast ∈ s.finfo.tmpdirList → host.topAccess = true
    else tupFsAccess host s (jobPath n p.dropLast) ≠ none
  | .symlink _ p made => made = true ∧ OpenDir host s p.dropLast
  | .rename p q =>
    if pathText p ∈ s.finfo.tmpdirList then
      view host n s q = none ∧ (∀ r, Below p r → s.made (pathText r) = none) ∧ OpenDir host s q.dropLast
    else if (s.findMapping (jobPath n p)).isSome then
      (view host n s q = none ∨ (s.findMapping (jobPath n q)).isSome) ∧ OpenDir host s q.dropLast
    else s.findMapping (jobPath n q) = none
  | _ => True

/-- The reply is an error. -/
def Reply.failed : Reply → Prop
  | .err _ => True
  | _ => False

/-- A request is answered as an ordinary tree answers it, and does nothing when it fails. -/
structure Answers (host : Host) (s : FuseState) (r : JobRequest) (a : Reply × FuseState) : Prop where
  kept : a.2.Kept
  tree : a.2.overlay host = treeStep host (s.overlay host) r
  reply : a.1.failed ↔ ¬ Succeeds host (s.overlay host) r
  frame : a.1.failed → Unchanged s a.2

section

variable {host : Host} {n : ℕ} {s : FuseState} {r : JobRequest} {p q : List PathName}
  {t : FileTree PathName Content} {op : Request PathName Content} {reply : Reply} {a : Reply × FuseState}

theorem succeeds_iff (hop : r.op = some op) : Succeeds host t r ↔ Allows (mayWrite host) t op := by
  have key : (∃ op, r.op = some op ∧ Allows (mayWrite host) t op) ↔ Allows (mayWrite host) t op := by
    constructor
    · rintro ⟨op', hop', hallow⟩
      rw [hop] at hop'
      cases hop'
      exact hallow
    · exact fun hallow => ⟨op, hop, hallow⟩
  cases r with
  | getattr p => cases hop
  | _ => exact key

theorem treeStep_of_allows (hop : r.op = some op) (h : Allows (mayWrite host) t op) :
    treeStep host t r = t.after op := by
  unfold treeStep
  rw [hop]
  exact if_pos h

theorem treeStep_of_fails (h : ¬ Succeeds host t r) : treeStep host t r = t := by
  unfold treeStep
  split
  · next op hop => exact if_neg fun hallow => h ((succeeds_iff hop).2 hallow)
  · rfl

theorem Answers.of_fails (hk : s.Kept) (h : ¬ Succeeds host (s.overlay host) r) (hreply : a.1.failed)
    (hun : Unchanged s a.2) (hnum : s.filenum ≤ a.2.filenum) : Answers host s r a :=
  ⟨hun.kept hnum hk, by rw [hun.overlay_eq, treeStep_of_fails h], iff_of_true hreply h, fun _ => hun⟩

theorem Answers.of_done (hop : r.op = some op) (hallow : Allows (mayWrite host) (s.overlay host) op)
    (hreply : a.1 = .done) (h : a.2.Kept ∧ a.2.overlay host = (s.overlay host).after op) :
    Answers host s r a := by
  have hok : ¬ a.1.failed := by
    rw [hreply]
    exact not_false
  exact ⟨h.1, by rw [h.2, treeStep_of_allows hop hallow],
    iff_of_false hok (not_not.2 ((succeeds_iff hop).2 hallow)), fun hf => absurd hf hok⟩

/-! ### What the kernel has looked up -/

theorem FuseState.Kept.view_none_iff (hk : s.Kept) (hp : RegularPath host p) :
    view host n s p = none ↔ s.overlay host p = none := by
  rw [hk.view_eq hp, Option.map_eq_none_iff]

theorem FuseState.Kept.view_some_iff (hk : s.Kept) (hp : RegularPath host p) {i : Item Content} :
    view host n s p = some i ↔ ∃ m, s.overlay host p = some ⟨i, m⟩ := by
  rw [hk.view_eq hp, Option.map_eq_some_iff]
  constructor
  · rintro ⟨⟨j, m⟩, h, rfl⟩
    exact ⟨m, h⟩
  · rintro ⟨m, h⟩
    exact ⟨⟨i, m⟩, h, rfl⟩

theorem FuseState.Kept.not_listed (hk : s.Kept) (h : s.overlay host p = none) :
    pathText p ∉ s.finfo.tmpdirList ∧ pathText p ∉ s.finfo.mappingList.map Mapping.realname := by
  constructor
  · intro hdir
    rw [FuseState.overlay_of_mem host hdir] at h
    cases h
  · intro hmap
    obtain ⟨map, hmem, hname⟩ := List.mem_map.1 hmap
    obtain ⟨c, -, hc⟩ := hk.overlay_of_find host
      ((find_eq_some_key hk.mapping_nodup).2 ⟨hmem, hname⟩)
    rw [hc] at h
    cases h

/-- The directories in which names can be added are the open ones. -/
theorem FuseState.Kept.writable_iff (hk : s.Kept) {m : Bool} (hdir : s.overlay host p = some ⟨.dir, m⟩) :
    FileTree.Writable (mayWrite host) (s.overlay host) p ↔ OpenDir host s p := by
  have hm : m = true ↔ pathText p ∈ s.finfo.tmpdirList := by
    rw [← hk.overlay_dir_iff host, hdir]
    simp
  constructor
  · rintro ⟨m', hdir', hor⟩
    rw [hdir] at hdir'
    cases hdir'
    exact hor.imp_left hm.1
  · exact fun hor => ⟨m, hdir, hor.imp_left hm.2⟩

theorem parentCheck_none (hk : s.Kept) (hp : RegularPath host p) :
    parentCheck (view host n s) p = none ↔ ∃ m, s.overlay host p.dropLast = some ⟨.dir, m⟩ := by
  rw [← hk.view_some_iff (n := n) hp.dropLast]
  unfold parentCheck
  split <;> simp_all

theorem parentCheck_failed {look : List PathName → Option (Item Content)}
    (h : parentCheck look p = some reply) : reply.failed := by
  unfold parentCheck at h
  split at h
  · cases h
  all_goals
    cases h
    trivial

theorem makeCheck_none (hk : s.Kept) (hp : RegularPath host p) :
    makeCheck (view host n s) p = none ↔
      p ≠ [] ∧ s.overlay host p = none ∧ ∃ m, s.overlay host p.dropLast = some ⟨.dir, m⟩ := by
  rw [← parentCheck_none (n := n) hk hp, ← hk.view_none_iff (n := n) hp]
  unfold makeCheck
  split
  · next h =>
    refine iff_of_false (Option.some_ne_none _) fun ⟨hne, hnone, _⟩ => ?_
    rcases h with hnil | hsome
    · exact hne hnil
    · rw [hnone] at hsome
      cases hsome
  · next h =>
    rw [not_or, Option.not_isSome_iff_eq_none] at h
    exact ⟨fun hp => ⟨h.1, h.2, hp⟩, fun hp => hp.2.2⟩

theorem makeCheck_failed {look : List PathName → Option (Item Content)}
    (h : makeCheck look p = some reply) : reply.failed := by
  unfold makeCheck at h
  split at h
  · cases h
    trivial
  · exact parentCheck_failed h

/-- Where the kernel does not let a path be made, an ordinary tree does not either. -/
theorem not_allows_add (hk : s.Kept) (hp : RegularPath host p)
    (h : makeCheck (view host n s) p = some reply) (i : Item Content) :
    ¬ Allows (mayWrite host) (s.overlay host) (.add p i) := by
  rintro ⟨hne, hnone, m, hdir, -⟩
  rw [(makeCheck_none hk hp).2 ⟨hne, hnone, m, hdir⟩] at h
  cases h

theorem not_succeeds (hget : ∀ p, r ≠ .getattr p)
    (h : ∀ op, r.op = some op → ¬ Allows (mayWrite host) t op) : ¬ Succeeds host t r := by
  cases r with
  | getattr p => exact absurd rfl (hget p)
  | _ =>
    rintro ⟨op, hop, hallow⟩
    exact h op hop hallow

/-- What the kernel answers to `rename` by itself. -/
theorem kernel_rename (hk : s.Kept) (hg : Grown (mayWrite host) (realTree host) (s.overlay host))
    (hp : RegularPath host p) (hq : RegularPath host q)
    (h : kernelCheck (view host n s) (.rename p q) = some reply) :
    Answers host s (.rename p q) (reply, s) := by
  have hfail : reply.failed → ¬ Allows (mayWrite host) (s.overlay host) (.move p q) →
      Answers host s (.rename p q) (reply, s) := fun hreply hnot =>
    .of_fails hk (mt (succeeds_iff rfl).1 hnot) hreply .rfl le_rfl
  simp only [kernelCheck] at h
  rcases hview : view host n s p with _ | i
  · rw [hview] at h
    cases h
    apply hfail trivial
    rw [hk.view_none_iff hp] at hview
    rintro (⟨-, hsome⟩ | ⟨⟨i, hi, -⟩, -⟩)
    · rw [hview] at hsome
      cases hsome
    · rw [hview] at hi
      cases hi
  simp only [hview] at h
  obtain ⟨m, hm⟩ := (hk.view_some_iff hp).1 hview
  by_cases hpq : p = q
  · subst hpq
    rw [if_pos rfl] at h
    cases h
    refine .of_done rfl (.inl ⟨rfl, by rw [hm]; rfl⟩) rfl ⟨hk, ?_⟩
    rw [FileTree.after, if_pos rfl]
  rw [if_neg hpq] at h
  by_cases hsub : p <+: q
  · rw [if_pos hsub] at h
    cases h
    apply hfail trivial
    rintro (⟨heq, -⟩ | ⟨-, hnot, -⟩)
    · exact hpq heq
    · exact hnot hsub
  rw [if_neg hsub] at h
  by_cases hsup : q <+: p
  · rw [if_pos hsup] at h
    cases h
    have hbelow : Below q p := ⟨hsup, Ne.symm hpq⟩
    apply hfail trivial
    rintro (⟨heq, -⟩ | ⟨⟨j, hj, hfree | ⟨k, hkq, -, hnone⟩⟩, -⟩)
    · exact hpq heq
    · rw [hg.closed.eq_none_of_none hfree hsup] at hj
      cases hj
    · rw [hnone p hbelow] at hj
      cases hj
  rw [if_neg hsup] at h
  by_cases hparent : (parentCheck (view host n s) q).isSome
  · rw [if_pos hparent] at h
    apply hfail (parentCheck_failed h)
    rintro (⟨heq, -⟩ | ⟨-, -, -, m', hdir, -⟩)
    · exact hpq heq
    · rw [(parentCheck_none hk hq).2 ⟨m', hdir⟩] at h
      cases h
  rw [if_neg hparent] at h
  -- what is left is that a directory and a file stand against each other
  have hkinds : ∀ j m', s.overlay host q = some ⟨j, m'⟩ → ¬ (i = .dir ↔ j = .dir) → reply.failed →
      Answers host s (.rename p q) (reply, s) := by
    intro j m' hj hne hreply
    apply hfail hreply
    rintro (⟨heq, -⟩ | ⟨⟨i', hi', hfree | ⟨k, hkq, hiff, -⟩⟩, -⟩)
    · exact hpq heq
    · rw [hj] at hfree
      cases hfree
    · rw [hj] at hkq
      cases hkq
      rw [hm] at hi'
      cases hi'
      exact hne hiff
  rcases i with _ | c
  · rcases hviewq : view host n s q with _ | (_ | c')
    · rw [hviewq] at h
      cases h
    · rw [hviewq] at h
      cases h
    · rw [hviewq] at h
      cases h
      obtain ⟨m', hm'⟩ := (hk.view_some_iff hq).1 hviewq
      exact hkinds _ _ hm' (by simp) trivial
  · rcases hviewq : view host n s q with _ | (_ | c')
    · rw [hviewq] at h
      cases h
    · rw [hviewq] at h
      cases h
      obtain ⟨m', hm'⟩ := (hk.view_some_iff hq).1 hviewq
      exact hkinds _ _ hm' (by simp) trivial
    · rw [hviewq] at h
      cases h

/-- What the kernel answers by itself is what an ordinary tree answers. -/
theorem kernel_answers (hk : s.Kept) (hg : Grown (mayWrite host) (realTree host) (s.overlay host))
    (hreg : r.Regular host) (h : kernelCheck (view host n s) r = some reply) :
    Answers host s r (reply, s) := by
  have hfail : ∀ {r : JobRequest}, reply.failed → (∀ p, r ≠ .getattr p) →
      (∀ op, r.op = some op → ¬ Allows (mayWrite host) (s.overlay host) op) →
      Answers host s r (reply, s) := fun hreply hget hnot =>
    .of_fails hk (not_succeeds hget hnot) hreply .rfl le_rfl
  cases r with
  | mkdir p =>
    refine hfail (makeCheck_failed h) (fun _ => JobRequest.noConfusion) fun op hop => ?_
    cases hop
    exact not_allows_add hk hreg h _
  | create p kind made =>
    refine hfail (makeCheck_failed h) (fun _ => JobRequest.noConfusion) fun op hop => ?_
    cases made with
    | false => cases hop
    | true =>
      obtain ⟨c, -, rfl⟩ := Option.map_eq_some_iff.1 hop
      exact not_allows_add hk hreg h _
  | symlink target p made =>
    refine hfail (makeCheck_failed h) (fun _ => JobRequest.noConfusion) fun op hop => ?_
    cases made with
    | false => cases hop
    | true =>
      cases hop
      exact not_allows_add hk hreg h _
  | rename p q => exact kernel_rename hk hg hreg.1 hreg.2 h
  | unlink p =>
    simp only [kernelCheck] at h
    have hnot : ∀ c, view host n s p ≠ some (.leaf c) := by
      intro c hc
      rw [hc] at h
      cases h
    refine hfail ?_ (fun _ => JobRequest.noConfusion) fun op hop => ?_
    · split at h <;> cases h <;> trivial
    · cases hop
      rintro ⟨⟨c, hc⟩, -⟩
      exact hnot c ((hk.view_some_iff hreg).2 ⟨true, hc⟩)
  | rmdir p =>
    simp only [kernelCheck] at h
    have hnot : view host n s p ≠ some .dir := by
      intro hc
      rw [hc] at h
      cases h
    refine hfail ?_ (fun _ => JobRequest.noConfusion) fun op hop => ?_
    · split at h <;> cases h <;> trivial
    · cases hop
      rintro ⟨hdir, -⟩
      exact hnot ((hk.view_some_iff hreg).2 ⟨true, hdir⟩)
  | truncate p size made =>
    simp only [kernelCheck] at h
    have hnot : ∀ bytes, view host n s p ≠ some (.leaf (.reg bytes)) := by
      intro bytes hc
      rw [hc] at h
      cases h
    refine hfail ?_ (fun _ => JobRequest.noConfusion) fun op hop => ?_
    · split at h <;> cases h <;> trivial
    · cases made with
      | false => cases hop
      | true =>
        cases hop
        rintro ⟨c, hc, hsome⟩
        cases c with
        | reg bytes => exact hnot bytes ((hk.view_some_iff hreg.1).2 ⟨true, hc⟩)
        | _ => cases hsome
  | getattr p => cases h

/-! ### The handlers -/

theorem mkdir_answers (hk : s.Kept) (hp : RegularPath host p)
    (h : makeCheck (view host n s) p = none) (hfits : OpenDir host s p.dropLast) :
    Answers host s (.mkdir p) (tupFsMkdir s (jobPath n p)) := by
  obtain ⟨hne, hnone, m, hdir⟩ := (makeCheck_none hk hp).1 h
  have hrun : tupFsMkdir s (jobPath n p) = (.done, s.mapFinfo fun info =>
      { info with tmpdirList := info.tmpdirList ++ [pathText p] }) := by
    unfold tupFsMkdir
    simp [hp.minded]
  obtain ⟨hpdir, hpmap⟩ := hk.not_listed hnone
  rw [hrun]
  exact .of_done rfl ⟨hne, hnone, (hk.writable_iff hdir).2 hfits⟩ rfl
    ⟨hk.add_dir hpdir hpmap, FuseState.overlay_add_dir p⟩

@[simp] theorem addMapping_mappingList (s : FuseState) (n : ℕ) (p : List PathName) :
    (s.addMapping (jobPath n p)).finfo.mappingList =
      s.finfo.mappingList ++ [⟨pathText p, s.filenum⟩] := by
  simp only [FuseState.addMapping, peel_jobPath]
  split <;> rfl

@[simp] theorem addMapping_tmpdirList (s : FuseState) (path : Text) :
    (s.addMapping path).finfo.tmpdirList = s.finfo.tmpdirList := by
  simp only [FuseState.addMapping]
  split <;> rfl

theorem symlink_answers (hk : s.Kept) (hp : RegularPath host p) {target : Text} {made : Bool}
    (h : makeCheck (view host n s) p = none) (hfits : made = true ∧ OpenDir host s p.dropLast) :
    Answers host s (.symlink target p made) (tupFsSymlink s target (jobPath n p) made) := by
  obtain ⟨rfl, hopen⟩ := hfits
  obtain ⟨hne, hnone, m, hdir⟩ := (makeCheck_none hk hp).1 h
  obtain ⟨hpdir, hpmap⟩ := hk.not_listed hnone
  exact .of_done rfl ⟨hne, hnone, (hk.writable_iff hdir).2 hopen⟩ rfl
    (hk.add_map host (addMapping_mappingList s n p) (addMapping_tmpdirList s _) rfl rfl hpdir hpmap)

/-- Whether the directory of a new file may be written. -/
theorem access_iff (hk : s.Kept) (hp : RegularPath host p) {m : Bool}
    (hdir : s.overlay host p = some ⟨.dir, m⟩) :
    tupFsAccess host s (jobPath n p) = none ↔
      if pathText p ∈ s.finfo.tmpdirList then host.topAccess = true else host.access (pathText p) = true := by
  have hmap : s.finfo.mappingList.find? (·.realname = pathText p) = none := by
    rw [Option.eq_none_iff_forall_ne_some]
    intro map hfind
    obtain ⟨c, -, hc⟩ := hk.overlay_of_find host hfind
    rw [hdir] at hc
    cases hc
  unfold tupFsAccess
  simp only [FuseState.findMapping_jobPath, hmap, peel_jobPath, hp.real]
  split
  · simp
  · simp

theorem create_answers (hk : s.Kept) (hp : RegularPath host p) {kind : NodeKind} {made : Bool}
    (h : makeCheck (view host n s) p = none) (hfits : Fits host n s (.create p kind made)) :
    Answers host s (.create p kind made) (mknodInternal host s (jobPath n p) kind made) := by
  obtain ⟨hne, hnone, m, hdir⟩ := (makeCheck_none hk hp).1 h
  obtain ⟨hpdir, hpmap⟩ := hk.not_listed hnone
  have haccess := access_iff (n := n) hk hp.dropLast hdir
  have hwrite := hk.writable_iff hdir
  have hnot : ∀ {c : Content}, ¬ OpenDir host s p.dropLast →
      ¬ Allows (mayWrite host) (s.overlay host) (.add p (.leaf c)) := fun hclosed hallow =>
    hclosed (hwrite.1 hallow.2.2)
  unfold mknodInternal
  rw [dirname_jobPath hne]
  rcases haccess' : tupFsAccess host s (jobPath n p.dropLast) with _ | e
  · -- the directory may be written, so that the file is made or is of no kind that can be made
    have hopen : OpenDir host s p.dropLast := by
      rw [haccess'] at haccess
      by_cases hmem : pathText p.dropLast ∈ s.finfo.tmpdirList
      · exact .inl hmem
      · rw [if_neg hmem] at haccess
        exact .inr (haccess.1 rfl)
    rcases hc : kind.content with _ | c
    · refine .of_fails hk (not_succeeds (fun _ => JobRequest.noConfusion) fun op hop => ?_) trivial .rfl
        le_rfl
      cases made <;> simp [JobRequest.op, hc] at hop
    · have hkind : kind ≠ .other := by
        rintro rfl
        cases hc
      have hmade : made = true := by
        have hcond := hfits hkind
        cases made with
        | true => rfl
        | false => exact absurd haccess' (by simpa using hcond)
      subst hmade
      have hop : (JobRequest.create p kind true).op = some (.add p (.leaf c)) := by
        simp [JobRequest.op, hc]
      refine .of_done hop ⟨hne, hnone, hwrite.2 hopen⟩ rfl ?_
      refine hk.add_map host ?_ ?_ ?_ ?_ hpdir hpmap
      all_goals
        simp only [if_true, FuseState.setTmp]
        split
      · rw [(unchanged_handleFile _ _ _).1.mappingList, addMapping_mappingList]
      · exact addMapping_mappingList s n p
      · rw [(unchanged_handleFile _ _ _).1.tmpdirList, addMapping_tmpdirList]
      · exact addMapping_tmpdirList s _
      · rw [(unchanged_handleFile _ _ _).1.tmp]
        rfl
      · rfl
      · rw [(unchanged_handleFile _ _ _).2]
        rfl
      · rfl
  · refine .of_fails hk (not_succeeds (fun _ => JobRequest.noConfusion) fun op hop => ?_) trivial .rfl le_rfl
    cases made with
    | false => cases hop
    | true =>
      obtain ⟨c, hc, rfl⟩ := Option.map_eq_some_iff.1 hop
      apply hnot
      have hkind : kind ≠ .other := by
        rintro rfl
        cases hc
      have htop := hfits hkind
      rw [haccess'] at haccess
      rintro (hmem | hreal)
      · rw [if_pos hmem] at haccess
        exact Option.some_ne_none _ (haccess.2 (htop hmem))
      · by_cases hmem : pathText p.dropLast ∈ s.finfo.tmpdirList
        · rw [if_pos hmem] at haccess
          exact Option.some_ne_none _ (haccess.2 (htop hmem))
        · rw [if_neg hmem] at haccess
          exact Option.some_ne_none _ (haccess.2 hreal)

theorem not_mine_of_find (hmap : s.finfo.mappingList.find? (·.realname = pathText p) = none)
    (c : Content) : s.overlay host p ≠ some ⟨.leaf c, true⟩ := by
  by_cases hdir : pathText p ∈ s.finfo.tmpdirList
  · rw [FuseState.overlay_of_mem host hdir]
    exact fun h => nomatch h
  · rw [FuseState.overlay_of_none hdir hmap]
    exact FuseState.realTree_not_mine host p _

theorem unlink_answers (hk : s.Kept) (hg : Grown (mayWrite host) (realTree host) (s.overlay host))
    (hp : RegularPath host p) : Answers host s (.unlink p) (tupFsUnlink s (jobPath n p)) := by
  rcases hmap : s.finfo.mappingList.find? (·.realname = pathText p) with _ | map
  · have hrun : tupFsUnlink s (jobPath n p) = (.err .perm, s) := by
      unfold tupFsUnlink
      rw [FuseState.findMapping_jobPath, hmap]
      have hnamed : strstr (jobPath n p) ".fuse_hidden".toList = false := strstr_jobPath hp.named
      simp only [hnamed]
      rfl
    rw [hrun]
    refine .of_fails hk (mt (succeeds_iff rfl).1 ?_) trivial .rfl le_rfl
    rintro ⟨⟨c, hc⟩, -⟩
    exact not_mine_of_find hmap c hc
  · obtain ⟨c, hc, htree⟩ := hk.overlay_of_find host hmap
    obtain ⟨hmem, hname⟩ := (find_eq_some_key hk.mapping_nodup).1 hmap
    have hrun : tupFsUnlink s (jobPath n p) = (.done,
        ((s.setTmp map.tmpname none).delMap (jobPath n p)).handleFile (jobPath n p) .unlink) := by
      unfold tupFsUnlink
      rw [FuseState.findMapping_jobPath, hmap]
    obtain ⟨hun, hnum⟩ := unchanged_handleFile ((s.setTmp map.tmpname none).delMap (jobPath n p))
      (jobPath n p) .unlink
    rw [hrun]
    refine .of_done rfl ⟨⟨c, htree⟩, (hg.writable p _ htree).2⟩ rfl ?_
    refine hk.drop_map host hmem hname ?_ hun.tmpdirList (fun k hne => ?_) hnum.ge
      (hg.base_none_of_mine htree (FuseState.realTree_not_mine host p))
    · rw [hun.mappingList, ← eraseP_key hk.mapping_nodup, ← peel_jobPath n p]
      rfl
    · rw [hun.tmp]
      exact Function.update_of_ne hne _ _

/-- What is below a directory of the job is in its lists. -/
theorem eq_none_of_not_listed (hclosed : Closed (realTree host))
    (hreal : realTree host p = none) (hne : p ≠ [])
    (hdirs : s.finfo.tmpdirList.any (isBelow (pathText p)) = false)
    (hmaps : s.finfo.mappingList.any (isBelow (pathText p) ·.realname) = false) (hpq : Below p q) :
    s.overlay host q = none := by
  have hbelow := (isBelow_iff hne).2 hpq
  rw [FuseState.overlay_of_none, hclosed.eq_none_of_none hreal hpq.1]
  · intro hdir
    rw [List.any_eq_false] at hdirs
    exact hdirs _ hdir hbelow
  · rw [find_eq_none_key]
    intro hmem
    obtain ⟨map, hmem, hname⟩ := List.mem_map.1 hmem
    rw [List.any_eq_false] at hmaps
    exact hmaps map hmem (hname ▸ hbelow)

theorem rmdir_answers (hk : s.Kept) (hclosed : Closed (realTree host))
    (hg : Grown (mayWrite host) (realTree host) (s.overlay host)) :
    Answers host s (.rmdir p) (tupFsRmdir s (jobPath n p)) := by
  have hfail : (¬ Allows (mayWrite host) (s.overlay host) (.removeDir p)) → ∀ e,
      Answers host s (.rmdir p) (.err e, s) := fun hnot e =>
    .of_fails hk (mt (succeeds_iff rfl).1 hnot) trivial .rfl le_rfl
  simp only [tupFsRmdir, peel_jobPath]
  split
  · next hany =>
    apply hfail
    rintro ⟨hdir, hnone, -⟩
    obtain ⟨name, hmem, hbelow⟩ := List.any_eq_true.1 hany
    obtain ⟨q, rfl⟩ := hk.named name hmem
    have hgone := hnone q ((isBelow_iff (hg.writable p _ hdir).1).1 hbelow)
    rw [FuseState.overlay_of_mem host hmem] at hgone
    cases hgone
  split
  · next hany =>
    apply hfail
    rintro ⟨hdir, hnone, -⟩
    obtain ⟨map, hmem, hbelow⟩ := List.any_eq_true.1 hany
    obtain ⟨q, hq⟩ := hk.mapped map hmem
    rw [hq] at hbelow
    have hgone := hnone q ((isBelow_iff (hg.writable p _ hdir).1).1 hbelow)
    obtain ⟨c, -, hc⟩ := hk.overlay_of_find host
      ((find_eq_some_key hk.mapping_nodup).2 ⟨hmem, hq⟩)
    rw [hc] at hgone
    cases hgone
  split
  · next hdirs hmaps hmem =>
    have htree := FuseState.overlay_of_mem host hmem
    have hreal := hg.base_none_of_mine htree (FuseState.realTree_not_mine host p)
    obtain ⟨hne, hw⟩ := hg.writable p _ htree
    refine .of_done rfl ⟨htree, fun q hpq => ?_, hw⟩ rfl
      ⟨hk.erase_dir _, hk.overlay_erase_dir hmem hreal⟩
    exact eq_none_of_not_listed hclosed hreal hne (Bool.eq_false_iff.2 hdirs)
      (Bool.eq_false_iff.2 hmaps) hpq
  · next hmem =>
    apply hfail
    rintro ⟨hdir, -⟩
    exact hmem ((hk.overlay_dir_iff host).1 hdir)

theorem truncate_answers (hk : s.Kept) {size : ℕ} {made : Bool} {bytes : List UInt8}
    (hp : RegularPath host p) (hexcl : host.exclusionMatch (pathText p) = false)
    (h : view host n s p = some (.leaf (.reg bytes))) :
    Answers host s (.truncate p size made) (tupFsTruncate host s (jobPath n p) size made) := by
  obtain ⟨hun, hnum⟩ := unchanged_handleFile s (jobPath n p) .write
  obtain ⟨m, hm⟩ := (hk.view_some_iff hp).1 h
  rcases hmap : s.finfo.mappingList.find? (·.realname = pathText p) with _ | map
  · have hrun : tupFsTruncate host s (jobPath n p) size made =
        (.err .perm, s.handleFile (jobPath n p) .write) := by
      unfold tupFsTruncate
      simp only [FuseState.findMapping_jobPath, hun.mappingList, hmap, peel_jobPath, hexcl, hp.shown]
      rfl
    rw [hrun]
    refine .of_fails hk (not_succeeds (fun _ => JobRequest.noConfusion) fun op hop => ?_) trivial hun hnum.ge
    cases made with
    | false => cases hop
    | true =>
      cases hop
      rintro ⟨c, hc, -⟩
      exact not_mine_of_find hmap c hc
  · obtain ⟨c, hc, htree⟩ := hk.overlay_of_find host hmap
    obtain ⟨hmem, hname⟩ := (find_eq_some_key hk.mapping_nodup).1 hmap
    rw [htree] at hm
    cases hm
    cases made with
    | false =>
      have hrun : tupFsTruncate host s (jobPath n p) size false =
          (.err .io, s.handleFile (jobPath n p) .write) := by
        unfold tupFsTruncate
        simp only [FuseState.findMapping_jobPath, hun.mappingList, hmap]
        split <;> simp_all
      rw [hrun]
      exact .of_fails hk (not_succeeds (fun _ => JobRequest.noConfusion) fun op hop => nomatch hop) trivial
        hun hnum.ge
    | true =>
      have hrun : tupFsTruncate host s (jobPath n p) size true = (.done,
          (s.handleFile (jobPath n p) .write).setTmp map.tmpname
            (some (.reg (bytes.take size ++ List.replicate (size - bytes.length) 0)))) := by
        unfold tupFsTruncate
        simp only [FuseState.findMapping_jobPath, hun.mappingList, hmap, hun.tmp, hc, Option.bind_some,
          Content.truncate]
      rw [hrun]
      refine .of_done rfl ⟨_, htree, rfl⟩ rfl ?_
      have hafter : (s.overlay host).after (.edit p (Content.truncate size)) =
          Function.update (s.overlay host) p (some ⟨.leaf (.reg (bytes.take size ++
            List.replicate (size - bytes.length) 0)), true⟩) := by
        simp only [FileTree.after, htree]
        rfl
      rw [hafter]
      refine hk.edit_tmp host hmem hname hun.mappingList hun.tmpdirList ?_ hnum.ge
      show Function.update _ _ _ = _
      rw [hun.tmp]

theorem getattr_reply (host : Host) (s : FuseState) (path : Text) :
    ((∃ i, (tupFsGetattr host s path).1 = .attr i) ∨ (tupFsGetattr host s path).1.failed) ∧
      Unchanged s (tupFsGetattr host s path).2 ∧ (tupFsGetattr host s path).2.filenum = s.filenum := by
  obtain ⟨hun, hnum⟩ := unchanged_handleFile s path .read
  simp only [tupFsGetattr]
  split
  · exact ⟨.inr trivial, .rfl, rfl⟩
  split
  · exact ⟨.inl ⟨_, rfl⟩, .rfl, rfl⟩
  split
  · refine ⟨?_, hun, hnum⟩
    split
    · exact .inl ⟨_, rfl⟩
    · exact .inr trivial
  split
  · exact ⟨.inl ⟨_, rfl⟩, .rfl, rfl⟩
  · exact ⟨.inr trivial, ⟨rfl, rfl, rfl⟩, rfl⟩
  · refine ⟨?_, hun, hnum⟩
    split
    · exact .inl ⟨_, rfl⟩
    · exact .inr trivial

theorem getattr_answers (hk : s.Kept) (hp : RegularPath host p) :
    Answers host s (.getattr p) (tupFsGetattr host s (jobPath n p)) := by
  obtain ⟨hreply, hun, hnum⟩ := getattr_reply host s (jobPath n p)
  refine ⟨hun.kept hnum.ge hk, hun.overlay_eq, ?_, fun _ => hun⟩
  have hsees : Succeeds host (s.overlay host) (.getattr p) ↔ (view host n s p).isSome := by
    rw [hk.view_eq hp, Option.isSome_map]
    exact Iff.rfl
  rw [hsees]
  unfold view
  rcases hreply with ⟨i, hi⟩ | hfailed
  · rw [hi]
    exact iff_of_false not_false (not_not.2 rfl)
  · refine iff_of_true hfailed ?_
    split
    · next i hi =>
      rw [hi] at hfailed
      exact hfailed.elim
    · exact Bool.false_ne_true

/-- What `rename` does with a directory of the job. -/
theorem rename_dir_answers (hk : s.Kept) (hclosed : Closed (realTree host))
    (hg : Grown (mayWrite host) (realTree host) (s.overlay host)) (hq : RegularPath host q)
    (hpq : ¬ p <+: q) (hparent : ∃ m, s.overlay host q.dropLast = some ⟨.dir, m⟩)
    (hmem : pathText p ∈ s.finfo.tmpdirList) (hnone : view host n s q = none)
    (hempty : ∀ r, Below p r → s.made (pathText r) = none) (hopen : OpenDir host s q.dropLast) :
    Answers host s (.rename p q) (tupFsRename host s (jobPath n p) (jobPath n q)) := by
  have htree := FuseState.overlay_of_mem host hmem
  have hreal := hg.base_none_of_mine htree (FuseState.realTree_not_mine host p)
  obtain ⟨m, hdir⟩ := hparent
  rw [hk.view_none_iff hq] at hnone
  obtain ⟨hqdir, hqmap⟩ := hk.not_listed hnone
  have hbelow : ∀ r, Below p r → s.overlay host r = none := by
    intro r hpr
    unfold FuseState.overlay
    rw [hempty r hpr]
    exact hclosed.eq_none_of_none hreal hpr.1
  have hbelow' : ∀ r, Below q r → s.overlay host r = none := fun r hqr =>
    hg.closed.eq_none_of_none hnone hqr.1
  have hrun : tupFsRename host s (jobPath n p) (jobPath n q) = (.done, s.mapFinfo fun info =>
      { info with tmpdirList := info.tmpdirList.replace (pathText p) (pathText q) }) := by
    unfold tupFsRename
    simp [hmem]
  rw [hrun]
  refine .of_done rfl (.inr ⟨⟨.dir, htree, .inl hnone⟩, hpq, (hg.writable p _ htree).2,
    (hk.writable_iff hdir).2 hopen⟩) rfl ?_
  have hne : p ≠ q := by
    rintro rfl
    exact hpq List.prefix_rfl
  rw [FileTree.after, if_neg hne, moved_eq_update hbelow hbelow', htree]
  exact hk.move_dir host hmem hreal hqdir hqmap

/-- The state when the target of `rename` is out of the way. -/
def clearTarget (host : Host) (s : FuseState) (dst : Text) : FuseState :=
  match s.findMapping dst with
  | some map => (if host.inTop then s.setTmp map.tmpname none else s).delMap dst
  | none => s

theorem tupFsRename_of_not_dir (hdir : pathText p ∉ s.finfo.tmpdirList) (hq : RegularPath host q) :
    tupFsRename host s (jobPath n p) (jobPath n q) =
      match (clearTarget host s (jobPath n q)).findMapping (jobPath n p) with
      | none => (.err .noent, clearTarget host s (jobPath n q))
      | some _ => (.done, ((clearTarget host s (jobPath n q)).setRealname (jobPath n p) (pathText q)).mapFinfo
          (handleRename (pathText p) (pathText q))) := by
  unfold tupFsRename
  have hnamed := hq.named
  simp only [peel_jobPath, if_neg hdir, hnamed, Bool.false_eq_true, if_false]
  rfl

/-- A file of the job at the target goes, and nothing else changes. -/
theorem clearTarget_spec (hk : s.Kept) (hg : Grown (mayWrite host) (realTree host) (s.overlay host))
    {map : Mapping} {c : Content} (hpq : p ≠ q)
    (hmap : s.finfo.mappingList.find? (·.realname = pathText p) = some map)
    (hc : s.tmp map.tmpname = some c)
    (hfree : s.overlay host q = none ∨ (s.findMapping (jobPath n q)).isSome) :
    let s₁ := clearTarget host s (jobPath n q)
    s₁.Kept ∧ s₁.overlay host = Function.update (s.overlay host) q none ∧
      s₁.findMapping (jobPath n p) = some map ∧ s₁.tmp map.tmpname = some c ∧
      s.filenum ≤ s₁.filenum := by
  obtain ⟨hmem, hname⟩ := (find_eq_some_key hk.mapping_nodup).1 hmap
  intro s₁
  rcases hmap₂ : s.finfo.mappingList.find? (·.realname = pathText q) with _ | map₂
  · have hs₁ : s₁ = s := by
      simp only [s₁, clearTarget, FuseState.findMapping_jobPath, hmap₂]
    rw [hs₁]
    have hnone : s.overlay host q = none := by
      rcases hfree with hnone | hsome
      · exact hnone
      · rw [FuseState.findMapping_jobPath, hmap₂] at hsome
        cases hsome
    refine ⟨hk, ?_, by rw [FuseState.findMapping_jobPath, hmap], hc, le_rfl⟩
    rw [← hnone, Function.update_eq_self]
  · obtain ⟨hmem₂, hname₂⟩ := (find_eq_some_key hk.mapping_nodup).1 hmap₂
    obtain ⟨c₂, -, htree₂⟩ := hk.overlay_of_find host hmap₂
    have hne : map.tmpname ≠ map₂.tmpname := by
      intro heq
      have hsame := List.inj_on_of_nodup_map hk.tmp_nodup hmem hmem₂ heq
      rw [hsame, hname₂] at hname
      exact hpq (pathText_injective hname.symm)
    have hs₁ : s₁ = (if host.inTop then s.setTmp map₂.tmpname none else s).delMap (jobPath n q) := by
      simp only [s₁, clearTarget, FuseState.findMapping_jobPath, hmap₂]
    have hmaps : s₁.finfo.mappingList = s.finfo.mappingList.filter (·.realname ≠ pathText q) := by
      rw [hs₁, ← eraseP_key hk.mapping_nodup, ← peel_jobPath n q]
      split <;> rfl
    have hdirs : s₁.finfo.tmpdirList = s.finfo.tmpdirList := by
      rw [hs₁]
      split <;> rfl
    have htmp : ∀ k, k ≠ map₂.tmpname → s₁.tmp k = s.tmp k := by
      intro k hk
      rw [hs₁]
      split
      · exact Function.update_of_ne hk _ _
      · rfl
    have hnum : s.filenum ≤ s₁.filenum := by
      rw [hs₁]
      split <;> exact le_rfl
    obtain ⟨hk₁, htree₁⟩ := hk.drop_map host hmem₂ hname₂ hmaps hdirs htmp hnum
      (hg.base_none_of_mine htree₂ (FuseState.realTree_not_mine host q))
    refine ⟨hk₁, htree₁, ?_, by rw [htmp _ hne, hc], hnum⟩
    rw [FuseState.findMapping_jobPath, find_eq_some_key hk₁.mapping_nodup, hmaps, List.mem_filter]
    refine ⟨⟨hmem, decide_eq_true fun heq => hpq (pathText_injective (hname.symm.trans heq))⟩, hname⟩

/-- What `rename` does with a file of the job. -/
theorem rename_file_answers (hk : s.Kept) (hg : Grown (mayWrite host) (realTree host) (s.overlay host))
    (hq : RegularPath host q) {map : Mapping} (hpq : ¬ p <+: q)
    (hparent : ∃ m, s.overlay host q.dropLast = some ⟨.dir, m⟩)
    (hpdir : pathText p ∉ s.finfo.tmpdirList)
    (hmap : s.finfo.mappingList.find? (·.realname = pathText p) = some map)
    (hfree : view host n s q = none ∨ (s.findMapping (jobPath n q)).isSome)
    (hopen : OpenDir host s q.dropLast) :
    Answers host s (.rename p q) (tupFsRename host s (jobPath n p) (jobPath n q)) := by
  have hne : p ≠ q := by
    rintro rfl
    exact hpq List.prefix_rfl
  obtain ⟨c, hc, htree⟩ := hk.overlay_of_find host hmap
  obtain ⟨m, hdir⟩ := hparent
  rw [hk.view_none_iff hq] at hfree
  obtain ⟨hk₁, htree₁, hmap₁, hc₁, hnum₁⟩ := clearTarget_spec hk hg hne hmap hc hfree
  rw [tupFsRename_of_not_dir hpdir hq, hmap₁]
  have hnotdir : ∀ {r : List PathName} {c : Content}, s.overlay host r = some ⟨.leaf c, true⟩ →
      ∀ r', Below r r' → s.overlay host r' = none := by
    intro r c hr r' hrr'
    apply hg.closed.eq_none _ hrr'
    intro m' hm'
    rw [hr] at hm'
    cases hm'
  have htarget : Free (s.overlay host) (.leaf c) q ∧ ∀ r, Below q r → s.overlay host r = none := by
    rcases hfree with hnone | hsome
    · exact ⟨.inl hnone, fun r hqr => hg.closed.eq_none_of_none hnone hqr.1⟩
    · obtain ⟨map₂, hmap₂⟩ := Option.isSome_iff_exists.1 hsome
      rw [FuseState.findMapping_jobPath] at hmap₂
      obtain ⟨c₂, -, htree₂⟩ := hk.overlay_of_find host hmap₂
      refine ⟨.inr ⟨.leaf c₂, htree₂, by simp, hnotdir htree₂⟩, hnotdir htree₂⟩
  refine .of_done rfl (.inr ⟨⟨.leaf c, htree, htarget.1⟩, hpq, (hg.writable p _ htree).2,
    (hk.writable_iff hdir).2 hopen⟩) rfl ?_
  rw [FileTree.after, if_neg hne, moved_eq_update (hnotdir htree) htarget.2, htree]
  rw [FuseState.findMapping_jobPath] at hmap₁
  obtain ⟨hmem₁, hname₁⟩ := (find_eq_some_key hk₁.mapping_nodup).1 hmap₁
  have hgone : (clearTarget host s (jobPath n q)).overlay host q = none := by
    rw [htree₁, Function.update_self]
  obtain ⟨hqdir, hqmap⟩ := hk₁.not_listed hgone
  have hmaps : ((clearTarget host s (jobPath n q)).setRealname (jobPath n p) (pathText q)).finfo.mappingList =
      (clearTarget host s (jobPath n q)).finfo.mappingList.map fun other =>
        if other.realname = pathText p then { other with realname := pathText q } else other := by
    rw [← replaceF_key hk₁.mapping_nodup, ← peel_jobPath n p]
    rfl
  have hreal := hg.base_none_of_mine htree (FuseState.realTree_not_mine host p)
  rw [← @Function.update_idem _ _ _ q none, Function.update_comm hne, ← htree₁]
  exact hk₁.move_map host hmem₁ hname₁ hc₁ hmaps rfl rfl le_rfl hreal hqdir hqmap

theorem rename_answers (hk : s.Kept) (hclosed : Closed (realTree host))
    (hg : Grown (mayWrite host) (realTree host) (s.overlay host)) (hq : RegularPath host q)
    (h : kernelCheck (view host n s) (.rename p q) = none)
    (hfits : Fits host n s (.rename p q)) :
    Answers host s (.rename p q) (tupFsRename host s (jobPath n p) (jobPath n q)) := by
  have hchecks : ¬ p <+: q ∧ parentCheck (view host n s) q = none := by
    simp only [kernelCheck] at h
    split at h
    · cases h
    by_cases hpq : p = q
    · rw [if_pos hpq] at h
      cases h
    rw [if_neg hpq] at h
    by_cases hsub : p <+: q
    · rw [if_pos hsub] at h
      cases h
    rw [if_neg hsub] at h
    by_cases hsup : q <+: p
    · rw [if_pos hsup] at h
      cases h
    rw [if_neg hsup] at h
    by_cases hparent : (parentCheck (view host n s) q).isSome
    · rw [if_pos hparent] at h
      rw [h] at hparent
      cases hparent
    · exact ⟨hsub, Option.not_isSome_iff_eq_none.1 hparent⟩
  obtain ⟨hsub, hparent⟩ := hchecks
  rw [parentCheck_none hk hq] at hparent
  simp only [Fits] at hfits
  split at hfits
  · next hmem => exact rename_dir_answers hk hclosed hg hq hsub hparent hmem hfits.1 hfits.2.1 hfits.2.2
  next hdir =>
  rcases hmap : s.finfo.mappingList.find? (·.realname = pathText p) with _ | map
  · rw [if_neg (by rw [FuseState.findMapping_jobPath, hmap]; exact Bool.false_ne_true)] at hfits
    have hclear : clearTarget host s (jobPath n q) = s := by
      unfold clearTarget
      rw [hfits]
    rw [tupFsRename_of_not_dir hdir hq, hclear, FuseState.findMapping_jobPath, hmap]
    refine .of_fails hk (mt (succeeds_iff rfl).1 ?_) trivial .rfl le_rfl
    rintro (⟨heq, -⟩ | ⟨⟨i, hi, -⟩, -⟩)
    · exact hsub (heq ▸ List.prefix_rfl)
    · rw [FuseState.overlay_of_none hdir hmap] at hi
      exact FuseState.realTree_not_mine host p i hi
  · rw [if_pos (by rw [FuseState.findMapping_jobPath, hmap]; rfl)] at hfits
    exact rename_file_answers hk hg hq hsub hparent hdir hmap hfits.1 hfits.2

/-- A request that is served under the condition is answered as on an ordinary tree. -/
theorem serve_answers (hk : s.Kept) (hclosed : Closed (realTree host))
    (hg : Grown (mayWrite host) (realTree host) (s.overlay host)) (hreg : r.Regular host)
    (hfits : kernelCheck (view host n s) r = none → Fits host n s r) :
    Answers host s r (serve host n s r) := by
  unfold serve
  split
  · next reply h => exact kernel_answers hk hg hreg h
  next h =>
  have hfits := hfits h
  cases r with
  | mkdir p => exact mkdir_answers hk hreg h hfits
  | create p kind made => exact create_answers hk hreg h hfits
  | symlink target p made => exact symlink_answers hk hreg h hfits
  | rename p q => exact rename_answers hk hclosed hg hreg.2 h hfits
  | unlink p => exact unlink_answers hk hg hreg
  | rmdir p => exact rmdir_answers hk hclosed hg
  | truncate p size made =>
    simp only [kernelCheck] at h
    split at h
    · cases h
    · cases h
    · next bytes hview => exact truncate_answers hk hreg.1 hreg.2 hview
    · cases h
  | getattr p => exact getattr_answers hk hreg

end

/-! ### Runs -/

/-- A request of a job on regular paths. -/
def JobStep (host : Host) (n : ℕ) (s : FuseState) (r : JobRequest) (s' : FuseState) : Prop :=
  r.Regular host ∧ s' = (serve host n s r).2

/-- A request that is answered by the kernel or fits. -/
def FitStep (host : Host) (n : ℕ) (s : FuseState) (r : JobRequest) (s' : FuseState) : Prop :=
  JobStep host n s r s' ∧ (kernelCheck (view host n s) r = none → Fits host n s r)

theorem kept_freshJob (k : ℕ) : (freshJob k).Kept := by
  constructor
  all_goals simp [freshJob]

theorem treeAfter_append (host : Host) (rs : List JobRequest) (r : JobRequest) :
    treeAfter host (rs ++ [r]) = treeStep host (treeAfter host rs) r := by
  unfold treeAfter
  rw [List.foldl_append]
  rfl

/-- In a run of requests that fit, the lists stand for the ordinary tree. -/
theorem lists_of_run (host : HostTree) {n k : ℕ} {rs : List JobRequest} {s : FuseState}
    (hrun : Run (FitStep host.toHost n) (freshJob k) rs s) :
    s.Kept ∧ s.overlay host.toHost = treeAfter host.toHost rs ∧
      Grown (mayWrite host.toHost) (realTree host.toHost) (s.overlay host.toHost) := by
  refine hrun.invariant (I := fun rs s => s.Kept ∧ s.overlay host.toHost = treeAfter host.toHost rs ∧
      Grown (mayWrite host.toHost) (realTree host.toHost) (s.overlay host.toHost)) ?_ ?_
  · have hfresh : (freshJob k).overlay host.toHost = realTree host.toHost := rfl
    refine ⟨kept_freshJob k, hfresh, ?_⟩
    rw [hfresh]
    exact .refl host.closed (FuseState.realTree_not_mine host.toHost)
  · rintro rs s r s' - ⟨hk, htree, hg⟩ ⟨⟨hreg, rfl⟩, hfits⟩
    have ha := serve_answers hk host.closed hg hreg hfits
    refine ⟨ha.kept, ?_, ?_⟩
    · rw [ha.tree, treeAfter_append, htree]
    · rw [ha.tree]
      unfold treeStep
      split
      · exact hg.perform host.closed (FuseState.realTree_not_mine host.toHost) _
      · exact hg

/-- In a run of requests that fit, the job sees the ordinary tree on which the same requests have been
made, has one mapping for each of its files, and the next request that fits is answered as there and
changes nothing when it fails. -/
theorem job_sees_own_tree (host : HostTree) (n k : ℕ) (rs : List JobRequest) (s : FuseState)
    (hrun : Run (FitStep host.toHost n) (freshJob k) rs s) :
    (∀ p, RegularPath host.toHost p → view host.toHost n s p = (treeAfter host.toHost rs p).map Slot.item) ∧
      ((s.finfo.mappingList.map Mapping.realname).Nodup ∧
        ∀ name, name ∈ s.finfo.mappingList.map Mapping.realname ↔
          ∃ p c, name = pathText p ∧ treeAfter host.toHost rs p = some ⟨.leaf c, true⟩) ∧
      ∀ r : JobRequest, r.Regular host.toHost →
        (kernelCheck (view host.toHost n s) r = none → Fits host.toHost n s r) →
        ((serve host.toHost n s r).1.failed ↔ ¬ Succeeds host.toHost (treeAfter host.toHost rs) r) ∧
          ((serve host.toHost n s r).1.failed → Unchanged s (serve host.toHost n s r).2) := by
  obtain ⟨hk, htree, hg⟩ := lists_of_run host hrun
  rw [← htree]
  refine ⟨fun p hp => hk.view_eq hp, ⟨hk.mapping_nodup, fun name => ?_⟩, fun r hreg hfits => ?_⟩
  · constructor
    · intro hname
      obtain ⟨map, hmem, rfl⟩ := List.mem_map.1 hname
      obtain ⟨p, hp⟩ := hk.mapped map hmem
      obtain ⟨c, hc⟩ := Option.isSome_iff_exists.1 (hk.present map hmem).1
      exact ⟨p, c, hp, hk.overlay_leaf_iff.2 ⟨map, hmem, hp, hc⟩⟩
    · rintro ⟨p, c, rfl, hc⟩
      obtain ⟨map, hmem, hname, -⟩ := hk.overlay_leaf_iff.1 hc
      exact hname ▸ List.mem_map_of_mem hmem
  · have ha := serve_answers hk host.closed hg hreg hfits
    exact ⟨ha.reply, ha.frame⟩

/-! ### A directory that is renamed -/

/-- A project whose real tree is the root directory. -/
def rootHost : Host where
  top := "/w".toList
  look := fun path => if path = ['/'] then some .dir else none
  access := fun _ => true
  topAccess := true
  exclusionMatch := fun _ => false
  inTop := true

theorem closed_rootHost : Closed (realTree rootHost) := by
  intro p q hq hpq
  have hroot : pathText q = pathText [] := by
    by_contra hne
    have hlook : rootHost.look (pathText q) = none := if_neg hne
    unfold realTree at hq
    rw [hlook] at hq
    cases hq
  exact absurd (pathText_injective hroot) hpq.ne_nil

/-- The paths `/d`, `/d/f`, `/e` and `/e/f`. -/
def pathD : List PathName := [⟨['d'], by decide⟩]
def pathDF : List PathName := [⟨['d'], by decide⟩, ⟨['f'], by decide⟩]
def pathE : List PathName := [⟨['e'], by decide⟩]
def pathEF : List PathName := [⟨['e'], by decide⟩, ⟨['f'], by decide⟩]

/-- The state after requests, whatever comes of them. -/
def serveAll (host : Host) (n : ℕ) (s : FuseState) (rs : List JobRequest) : FuseState :=
  rs.foldl (fun s r => (serve host n s r).2) s

theorem regular_rootHost : RegularPath rootHost pathD ∧ RegularPath rootHost pathDF ∧ RegularPath rootHost pathE ∧
    RegularPath rootHost pathEF := by
  refine ⟨?_, ?_, ?_, ?_⟩
  all_goals exact ⟨by decide, by decide, by decide, by decide⟩

/-- The run of the example up to the renaming fits. -/
theorem run_make_dir : Run (FitStep rootHost 1) (freshJob 0) [.mkdir pathD, .create pathDF .reg true]
    (serveAll rootHost 1 (freshJob 0) [.mkdir pathD, .create pathDF .reg true]) := by
  obtain ⟨hd, hdf, -⟩ := regular_rootHost
  have hmkdir : FitStep rootHost 1 (freshJob 0) (.mkdir pathD)
      (serveAll rootHost 1 (freshJob 0) [.mkdir pathD]) := ⟨⟨hd, rfl⟩, fun _ => .inr rfl⟩
  have hcreate : FitStep rootHost 1 (serveAll rootHost 1 (freshJob 0) [.mkdir pathD])
      (.create pathDF .reg true)
      (serveAll rootHost 1 (freshJob 0) [.mkdir pathD, .create pathDF .reg true]) :=
    ⟨⟨hdf, rfl⟩, fun _ _ _ => rfl⟩
  exact (Run.nil.snoc hmkdir).snoc hcreate

/-- A job that makes a directory and a file in it sees them. -/
theorem job_sees_own_tree_make : view rootHost 1
    (serveAll rootHost 1 (freshJob 0) [.mkdir pathD, .create pathDF .reg true]) pathDF =
      (treeAfter rootHost [.mkdir pathD, .create pathDF .reg true] pathDF).map Slot.item :=
  (job_sees_own_tree ⟨rootHost, closed_rootHost⟩ 1 0 _ _ run_make_dir).1 pathDF regular_rootHost.2.1

/-- When the job renames a directory, the file in it keeps its name: the job does not see it where the
ordinary tree has it, and the mapping list has it under the old path. -/
theorem renamed_directory_keeps_names :
    let rs : List JobRequest := [.mkdir pathD, .create pathDF .reg true, .rename pathD pathE]
    let s := serveAll rootHost 1 (freshJob 0) rs
    Run (JobStep rootHost 1) (freshJob 0) rs s ∧ RegularPath rootHost pathEF ∧
      view rootHost 1 s pathEF = none ∧
      treeAfter rootHost rs pathEF = some ⟨.leaf (.reg []), true⟩ ∧
      s.finfo.mappingList.map Mapping.realname = [pathText pathDF] := by
  intro rs s
  obtain ⟨hd, -, he, hef⟩ := regular_rootHost
  obtain ⟨-, htree, -⟩ := lists_of_run ⟨rootHost, closed_rootHost⟩ run_make_dir
  refine ⟨?_, hef, by decide, ?_, by decide⟩
  · have hrename : JobStep rootHost 1
        (serveAll rootHost 1 (freshJob 0) [.mkdir pathD, .create pathDF .reg true]) (.rename pathD pathE) s :=
      ⟨⟨hd, he⟩, rfl⟩
    exact (run_make_dir.mono fun _ _ _ h => h.1).snoc hrename
  · have hallow : Allows (mayWrite rootHost) (treeAfter rootHost [.mkdir pathD, .create pathDF .reg true])
        (.move pathD pathE) := by
      rw [← htree]
      exact .inr ⟨⟨.dir, by decide, .inl (by decide)⟩, by decide, ⟨false, by decide, .inr rfl⟩,
        ⟨false, by decide, .inr rfl⟩⟩
    show treeStep rootHost (treeAfter rootHost [.mkdir pathD, .create pathDF .reg true])
      (.rename pathD pathE) pathEF = _
    rw [treeStep_of_allows rfl hallow, FileTree.after, if_neg (by decide), ← htree]
    exact moved_append _ pathD pathE [⟨['f'], by decide⟩] |>.trans (by decide)

end Metatup
