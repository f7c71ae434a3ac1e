import Metatup.Db.Removal
import Metatup.Vars.Vardict

/-!
# The vardict files of variants

Each variant has a vardict file, named after its directory if that is at the top and otherwise by
the number of the directory.

* `vardictFile_inj`: two variants share a file just when the one's directory is at the top and has
  the number of the other's as its name.
* `vardict_answers_iff`: when what a `tup.config` says is what the processes of its variant are told.
-/

namespace Metatup

open Lib

/-- Source: `entry.c` `resolve_parent` -/
def tentParent (db : Db) (tent : TupEntry) : Option TupEntry :=
  if tent.dt = 0 then none else tupEntryAdd db tent.dt

/-- Source: `entry.c` `snprint_tup_entry`, for a node with a parent or none. The fuel bounds the
depth. -/
def snprintTupEntry (db : Db) : ℕ → Option TupEntry → Text
  | fuel + 1, some tent =>
    match tentParent db tent with
    | none => []
    | some parent => snprintTupEntry db fuel (some parent) ++ '/' :: tent.name
  | _, _ => []

/-- A number printed with `%lli`. -/
def printLli (i : ℤ) : Text :=
  if i < 0 then '-' :: Nat.toDigits 10 i.natAbs else Nat.toDigits 10 i.natAbs

def pathMax : ℕ := 4096

def vardictPath : Text := ".metatup/vardict".toList

/-- The `vardict_file` of a variant; `none` is a path that is too long. Source: `variant.c`
`variant_add` -/
def vardictFile (db : Db) (tent : TupEntry) : Option Text :=
  let variantDir := snprintTupEntry db (db.node.length + 1) (tentParent db tent)
  if pathMax ≤ variantDir.length then none
  else
    let file :=
      if tent.dt = dotDt then vardictPath
      else if (tentParent db tent).map TupEntry.dt = some dotDt then
        vardictPath ++ '-' :: variantDir.drop 1
      else vardictPath ++ '-' :: printLli tent.dt
    if pathMax ≤ file.length + 1 then none else some file

/-- The variants of a database: `tup.config` nodes that `variant_add` takes. The top is the row that
is made with the database. -/
structure VariantSet (db : Db) (vs : Set TupEntry) : Prop where
  tree : db.Tree
  root : ∃ t ∈ db.node, t.tupid = dotDt ∧ t.dt = 0
  config : ∀ v ∈ vs, v ∈ db.node ∧ v.name = tupConfig
  added : ∀ v ∈ vs, ∃ f, vardictFile db v = some f

/-- The directory of the one variant is at the top and has the number of the other's, which is not,
as its name. -/
def SameNumber (db : Db) (v w : TupEntry) : Prop :=
  v.dt ≠ dotDt ∧ w.dt ≠ dotDt ∧
    (∃ dir, tentParent db v = some dir ∧ dir.dt = dotDt ∧ dir.name = printLli w.dt) ∧
    (tentParent db w).map TupEntry.dt ≠ some dotDt

theorem printLli_injective {i j : ℤ} (h : printLli i = printLli j) : i = j := by
  have hdash : ∀ n : ℕ, '-' ∉ Nat.toDigits 10 n := fun n hm =>
    absurd (Nat.isDigit_of_mem_toDigits (by decide) (by decide) hm) (by decide)
  have hinj : ∀ n m : ℕ, Nat.toDigits 10 n = Nat.toDigits 10 m → n = m := fun n m hnm => by
    rw [← @Nat.ofDigitChars_ten_toDigits n, hnm, Nat.ofDigitChars_ten_toDigits]
  unfold printLli at h
  split_ifs at h with hi hj hj
  · have := hinj _ _ (List.cons.inj h).2
    omega
  · exact absurd (h ▸ List.mem_cons_self) (hdash j.natAbs)
  · exact absurd (h.symm ▸ List.mem_cons_self) (hdash i.natAbs)
  · have := hinj _ _ h
    omega

section

variable {db : Db} {vs : Set TupEntry} {v w : TupEntry}

theorem mem_of_tentParent {dir : TupEntry} (h : tentParent db v = some dir) :
    dir ∈ db.node ∧ dir.tupid = v.dt := by
  unfold tentParent at h
  split_ifs at h
  exact mem_node_of_tupEntryAdd h

theorem snprintTupEntry_top (hvs : VariantSet db vs) {dir : TupEntry} (h : dir.dt = dotDt) :
    snprintTupEntry db (db.node.length + 1) (some dir) = '/' :: dir.name := by
  obtain ⟨root, hmem, hid, hdt⟩ := hvs.root
  have hroot : tentParent db dir = some root := by
    rw [tentParent, if_neg (by rw [h]; decide), h, ← hid]
    exact hvs.tree.tupEntryAdd_of_mem hmem
  have hnone : tentParent db root = none := if_pos hdt
  obtain ⟨n, hn⟩ := Nat.exists_eq_succ_of_ne_zero (List.length_pos_of_mem hmem).ne'
  simp [hn, snprintTupEntry, hroot, hnone]

/-- The three ways in which a vardict file is named. -/
theorem vardictFile_cases (hvs : VariantSet db vs) {r : Text} (hr : vardictFile db v = some r) :
    (v.dt = dotDt ∧ r = vardictPath) ∨
    (v.dt ≠ dotDt ∧ ∃ dir, tentParent db v = some dir ∧ dir.dt = dotDt ∧
      r = vardictPath ++ '-' :: dir.name) ∨
    (v.dt ≠ dotDt ∧ (tentParent db v).map TupEntry.dt ≠ some dotDt ∧
      r = vardictPath ++ '-' :: printLli v.dt) := by
  unfold vardictFile at hr
  dsimp only at hr
  split_ifs at hr with hdir hroot hlen htop hlen hlen
  · cases hr
    exact .inl ⟨hroot, rfl⟩
  · cases hr
    obtain ⟨dir, hparent, hdt⟩ := Option.map_eq_some_iff.1 htop
    refine .inr (.inl ⟨hroot, dir, hparent, hdt, ?_⟩)
    rw [hparent, snprintTupEntry_top hvs hdt]
    rfl
  · cases hr
    exact .inr (.inr ⟨hroot, htop, rfl⟩)

/-- Two variants share a file just when one of them is named by the number of the other. -/
theorem vardictFile_inj (hvs : VariantSet db vs) (hv : v ∈ vs) (hw : w ∈ vs) (hne : v ≠ w)
    {r r' : Text} (hr : vardictFile db v = some r) (hr' : vardictFile db w = some r') :
    r = r' ↔ SameNumber db v w ∨ SameNumber db w v := by
  have hdt : v.dt ≠ w.dt := fun heq =>
    hne (hvs.tree.names v (hvs.config v hv).1 w (hvs.config w hw).1 heq
      ((hvs.config v hv).2.trans (hvs.config w hw).2.symm))
  have hpath : ∀ name : Text, vardictPath ≠ vardictPath ++ '-' :: name := fun name heq => by
    simpa using congrArg List.length heq
  have hcancel : ∀ name name' : Text,
      vardictPath ++ '-' :: name = vardictPath ++ '-' :: name' ↔ name = name' := by simp
  rcases vardictFile_cases hvs hr with ⟨hv1, hrv⟩ | ⟨hv2, dir, hdir, hdot, hrv⟩ | ⟨hv3, hdir, hrv⟩ <;>
  rcases vardictFile_cases hvs hr' with
    ⟨hw1, hrw⟩ | ⟨hw2, dir', hdir', hdot', hrw⟩ | ⟨hw3, hdir', hrw⟩ <;>
  rw [hrv, hrw]
  · exact absurd (hv1.trans hw1.symm) hdt
  · exact iff_of_false (hpath _) fun h => h.elim (fun h => h.1 hv1) fun h => h.2.1 hv1
  · exact iff_of_false (hpath _) fun h => h.elim (fun h => h.1 hv1) fun h => h.2.1 hv1
  · exact iff_of_false (hpath _).symm fun h => h.elim (fun h => h.2.1 hw1) fun h => h.1 hw1
  · rw [hcancel]
    refine iff_of_false (fun hname => hdt ?_) ?_
    · obtain ⟨hmem, hid⟩ := mem_of_tentParent hdir
      obtain ⟨hmem', hid'⟩ := mem_of_tentParent hdir'
      rw [← hid, ← hid', hvs.tree.names dir hmem dir' hmem' (hdot.trans hdot'.symm) hname]
    · rintro (h | h)
      · exact h.2.2.2 (by rw [hdir', Option.map_some, hdot'])
      · exact h.2.2.2 (by rw [hdir, Option.map_some, hdot])
  · rw [hcancel]
    constructor
    · exact fun hname => .inl ⟨hv2, hw3, ⟨dir, hdir, hdot, hname⟩, hdir'⟩
    · rintro (⟨-, -, ⟨dir₁, hdir₁, -, hname⟩, -⟩ | h)
      · cases hdir.symm.trans hdir₁
        exact hname
      · exact absurd (by rw [hdir, Option.map_some, hdot]) h.2.2.2
  · exact iff_of_false (hpath _).symm fun h => h.elim (fun h => h.2.1 hw1) fun h => h.1 hw1
  · rw [hcancel]
    constructor
    · exact fun hname => .inr ⟨hw2, hv3, ⟨dir', hdir', hdot', hname.symm⟩, hdir⟩
    · rintro (h | ⟨-, -, ⟨dir₁, hdir₁, -, hname⟩, -⟩)
      · exact absurd (by rw [hdir', Option.map_some, hdot']) h.2.2.2
      · cases hdir'.symm.trans hdir₁
        exact hname.symm
  · rw [hcancel]
    refine iff_of_false (fun hname => hdt (printLli_injective hname)) ?_
    rintro (⟨-, -, ⟨dir₁, hdir₁, hdot₁, -⟩, -⟩ | ⟨-, -, ⟨dir₁, hdir₁, hdot₁, -⟩, -⟩)
    · exact hdir (by rw [hdir₁, Option.map_some, hdot₁])
    · exact hdir' (by rw [hdir₁, Option.map_some, hdot₁])

end

/-! ### From the file to the process -/

/-- What a file says is what is read of it and what a process is answered from the saved file, and no
two variants have one file. -/
structure VardictOk (file : Bytes) (vdb : VarTree) (saved : Option Bytes) (db : Db)
    (vs : Set TupEntry) : Prop where
  denoted : ∀ m, Denotes file m ↔ m = vdb.get
  answered : ∃ v, tupVardictInit saved = some v ∧ ∀ key, tupConfigVar v key = vdb.get key
  distinct : ∀ v ∈ vs, ∀ w ∈ vs, v ≠ w → vardictFile db v ≠ vardictFile db w

theorem denotes_take {file : Bytes} (h : file.length < 2 ^ 32) (m : Bytes → Option Bytes) :
    Denotes (file.take (file.length % 2 ^ 32)) m ↔ Denotes file m := by
  rw [Nat.mod_eq_of_lt h, List.take_length]

theorem vardict_distinct_iff {db : Db} {vs : Set TupEntry} (hvs : VariantSet db vs) :
    (∀ v ∈ vs, ∀ w ∈ vs, v ≠ w → vardictFile db v ≠ vardictFile db w) ↔
      ∀ v ∈ vs, ∀ w ∈ vs, ¬ SameNumber db v w := by
  constructor
  · intro h v hv w hw hsame
    have hne : v ≠ w := by
      rintro rfl
      obtain ⟨-, -, ⟨dir, hdir, hdot, -⟩, hnot⟩ := hsame
      exact hnot (by rw [hdir, Option.map_some, hdot])
    obtain ⟨r, hr⟩ := hvs.added v hv
    obtain ⟨r', hr'⟩ := hvs.added w hw
    apply h v hv w hw hne
    rw [hr, hr', (vardictFile_inj hvs hv hw hne hr hr').2 (.inl hsame)]
  · intro h v hv w hw hne heq
    obtain ⟨r, hr⟩ := hvs.added v hv
    rcases (vardictFile_inj hvs hv hw hne hr (heq ▸ hr)).1 rfl with hsame | hsame
    · exact h v hv w hw hsame
    · exact h w hw v hv hsame

/-- A file is answered from as it is written just when its size in 32 bits loses nothing of it, the
two orders of its names agree and none has an `=` in it, and no variant at the top is named by the
number of another's directory. -/
theorem vardict_answers_iff {file : Bytes} {vdb : VarTree} (h : getFileVarTree file = some vdb)
    {varChanged : ℕ} (hchanged : varChanged ≠ 0) (old : Option Bytes) {db : Db} {vs : Set TupEntry}
    (hvs : VariantSet db vs) :
    VardictOk file vdb (saveVardictFile varChanged old vdb) db vs ↔
      (∀ m, Denotes (file.take (file.length % 2 ^ 32)) m ↔ Denotes file m) ∧
      (∀ m, Denotes file m → Searchable m) ∧ ∀ v ∈ vs, ∀ w ∈ vs, ¬ SameNumber db v w := by
  obtain ⟨n, hn, hfits⟩ := fits_of_getFileVarTree h
  have hsaved : tupVardictInit (saveVardictFile varChanged old vdb) = some (savedVardict vdb) :=
    tupVardictInit_saveVardictFile hfits hn hchanged
  have hdenoted : (∀ m, Denotes file m ↔ m = vdb.get) ↔
      ∀ m, Denotes (file.take (file.length % 2 ^ 32)) m ↔ Denotes file m :=
    forall_congr' fun m => by
      rw [getFileVarTree_denotes h]
      exact Iff.comm
  constructor
  · intro hok
    obtain ⟨v, hv, hget⟩ := hok.answered
    cases hsaved.symm.trans hv
    refine ⟨hdenoted.1 hok.denoted, fun m hm => ?_, (vardict_distinct_iff hvs).1 hok.distinct⟩
    rw [(hok.denoted m).1 hm]
    exact (tupConfigVar_iff hfits hn).1 hget
  · rintro ⟨hwhole, hsearch, hsame⟩
    have hden := hdenoted.2 hwhole
    refine ⟨hden, ⟨_, hsaved, ?_⟩, (vardict_distinct_iff hvs).2 hsame⟩
    exact (tupConfigVar_iff hfits hn).2 (hsearch _ ((hden _).2 rfl))

/-- Two nested directories, each of them a variant. -/
def nestedDb : Db where
  node :=
    [{ tupid := 1, dt := 0, type := .dir, name := ".".toList },
     { tupid := 2, dt := 1, type := .dir, name := "build".toList },
     { tupid := 3, dt := 2, type := .file, name := tupConfig },
     { tupid := 4, dt := 2, type := .dir, name := "debug".toList },
     { tupid := 5, dt := 4, type := .file, name := tupConfig }]

theorem nestedDb_variantSet : VariantSet nestedDb {v | v ∈ nestedDb.node ∧ v.name = tupConfig} where
  tree := ⟨by decide, by decide, Int.toNat, by decide⟩
  root := by decide
  config := fun v hv => hv
  added := by
    have h : ∀ v ∈ nestedDb.node, v.name = tupConfig → (vardictFile nestedDb v).isSome := by decide
    exact fun v hv => Option.isSome_iff_exists.1 (h v hv.1 hv.2)

/-- One variable, in a file whose name no other variant has. -/
theorem vardict_answers_nested :
    ∃ vdb, getFileVarTree (bytes "CONFIG_A=y\n") = some vdb ∧
      VardictOk (bytes "CONFIG_A=y\n") vdb (saveVardictFile 1 none vdb) nestedDb
        {v | v ∈ nestedDb.node ∧ v.name = tupConfig} := by
  have hentries : (getFileVarTree (bytes "CONFIG_A=y\n")).map (·.entries) =
      some [(bytes "A", bytes "y")] := by decide +kernel
  obtain ⟨vdb, hvdb, hentries⟩ := Option.map_eq_some_iff.1 hentries
  have hlen : (bytes "CONFIG_A=y\n").length < 2 ^ 32 := by decide
  have hkeys : ∀ k, (vdb.get k).isSome → k = bytes "A" := by
    intro k hk
    obtain ⟨e, he, rfl⟩ := isSome_get_iff.1 hk
    rw [hentries, List.mem_singleton] at he
    rw [he]
  refine ⟨vdb, hvdb, (vardict_answers_iff hvdb (by decide) none nestedDb_variantSet).2
    ⟨denotes_take hlen, fun m hm => ?_, ?_⟩⟩
  · rw [← denotes_take hlen, getFileVarTree_denotes hvdb] at hm
    subst hm
    constructor
    · intro k hk
      rw [hkeys k hk]
      decide
    · intro k l hk hl hlt
      rw [hkeys k hk, hkeys l hl] at hlt
      exact absurd hlt (lt_irrefl _)
  · have hnames : ∀ dir ∈ nestedDb.node, ∀ w ∈ nestedDb.node, dir.name ≠ printLli w.dt := by decide
    rintro v - w hw ⟨-, -, ⟨dir, hdir, -, hname⟩, -⟩
    exact hnames dir (mem_of_tentParent hdir).1 w hw.1 hname

/-- A file with the names `a` and, a byte that is negative as a `char`, 128. -/
def highFile : Bytes := bytes "CONFIG_a=1\nCONFIG_" ++ 128 :: bytes "=2\n"

/-- The second of the two names is never found. -/
theorem high_name_not_answered :
    ∃ vdb, getFileVarTree highFile = some vdb ∧ vdb.get [128] = some (bytes "2") ∧
      (∃ v, tupVardictInit (saveVardictFile 1 none vdb) = some v ∧ tupConfigVar v [128] = none) ∧
      ¬ VardictOk highFile vdb (saveVardictFile 1 none vdb) nestedDb ∅ := by
  have hentries : (getFileVarTree highFile).map (·.entries) =
      some [(bytes "a", bytes "1"), ([128], bytes "2")] := by decide +kernel
  obtain ⟨vdb, hvdb, hentries⟩ := Option.map_eq_some_iff.1 hentries
  obtain ⟨n, hn, hfits⟩ := fits_of_getFileVarTree hvdb
  have hsaved : tupVardictInit (saveVardictFile 1 none vdb) = some (savedVardict vdb) :=
    tupVardictInit_saveVardictFile hfits hn (by decide)
  have hget : vdb.get [128] = some (bytes "2") := by
    rw [SortedTable.get, hentries]
    decide
  have hmissed : tupConfigVar (savedVardict vdb) [128] = none := by
    rw [savedVardict, hentries]
    decide +kernel
  refine ⟨vdb, hvdb, hget, ⟨_, hsaved, hmissed⟩, fun hok => ?_⟩
  obtain ⟨v, hv, hanswered⟩ := hok.answered
  cases hsaved.symm.trans hv
  cases hmissed.symm.trans ((hanswered [128]).trans hget)

end Metatup
