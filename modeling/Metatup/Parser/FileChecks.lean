import Metatup.Parser.Tupbuild

/-!
# What is checked in a TupBuild file

The checks of `tupbuild_parse` and `parse_tupbuild` before a function is called, as properties of the
builds of the file.

* `ParseAccepts`, `PassesChecks`: the checks, as the code makes them.
* `WellFormed`: what they say.
* `cycle_names_iff`: cycles, in terms of the names.
* `passesChecks_iff`: that they say it.
-/

namespace Metatup

open Lib Relation

/-! ### The checks -/

/-- The checks at the end of `tupbuild_parse_build`, and those of its mappings. -/
structure BuildAccepted (b : TupbuildBuild) : Prop where
  /-- "duplicate key in mapping" -/
  keys : (b.args.map Prod.fst).Nodup
  /-- "build must specify both tupfile and function, or neither" -/
  both : b.tupfile.isSome = b.function.isSome
  /-- "dependency-only build cannot declare dists" -/
  dists : b.tupfile = none → b.dists = []

/-- The checks of `tupbuild_parse` on the values of a file. -/
structure ParseAccepts (tb : TupbuildFile) : Prop where
  /-- "TupBuild.yaml requires at least one build" -/
  nonempty : tb.builds ≠ []
  /-- "duplicate key in mapping" -/
  globalKeys : (tb.globalArgs.map Prod.fst).Nodup
  builds : ∀ b ∈ tb.builds, BuildAccepted b

/-- The checks of `tupbuild_parse` and `parse_tupbuild` before the function of a build is called, with
arguments whose values can be resolved. -/
structure PassesChecks (tb : TupbuildFile) : Prop where
  parsed : ParseAccepts tb
  checks : tupbuildChecks tb tb.builds = .ok ()
  order : ∀ fuel, tb.builds.length < fuel → ∃ order, tupbuildOrder tb fuel = some (some order)
  args : ∀ b ∈ tb.builds, (tupbuildArgs some tb b).isSome = true

/-! ### Builds and files -/

/-- The arguments and aliases of a build do not get in each other's way. -/
structure ArgsOk (profile : Option Text) (args : List (Text × Text)) (aliases : List Text) : Prop where
  reserved : ∀ key ∈ args.map Prod.fst, isReserved key = false
  profileOk : ∀ p, profile = some p → isReserved p = false
  distinct : aliases.Nodup
  free : ∀ as ∈ aliases, isReserved as = false ∧ as ∉ args.map Prod.fst ∧ profile ≠ some as

/-- What the checks say of a file without global arguments. -/
structure WellFormed (tb : TupbuildFile) : Prop where
  nonempty : tb.builds ≠ []
  accepted : ∀ b ∈ tb.builds, BuildAccepted b
  names : (tb.builds.map TupbuildBuild.name).Nodup
  builddirs : (tb.builds.map TupbuildBuild.builddir).Nodup
  known : ∀ b ∈ tb.builds, ∀ dep ∈ b.depends, ∃ a ∈ tb.builds, a.name = dep.build
  args : ∀ b ∈ tb.builds, ArgsOk b.profile b.args (b.depends.map TupbuildDep.as)
  acyclic : ¬ ∃ x, TransGen (DependsOn tb) x x

theorem checkDistinct_ok_iff {build : TupbuildBuild} {rest : List TupbuildBuild} :
    checkDistinct build rest = .ok () ↔
      build.name ∉ rest.map TupbuildBuild.name ∧ build.builddir ∉ rest.map TupbuildBuild.builddir := by
  induction rest with
  | nil => simp [checkDistinct]
  | cons other rest ih =>
    unfold checkDistinct
    split
    · next h => simp [h]
    · next hname =>
      split
      · next h => simp [h]
      · next hdir =>
        rw [ih]
        simp [hname, hdir]

theorem checkDepends_ok_iff {tb : TupbuildFile} {name : Text} {depends : List TupbuildDep} :
    checkDepends tb name depends = .ok () ↔
      (∀ dep ∈ depends, ∃ a ∈ tb.builds, a.name = dep.build) ∧
        (depends.map TupbuildDep.as).Nodup := by
  induction depends with
  | nil => simp [checkDepends]
  | cons dep rest ih =>
    have hfind : (tupbuildFindBuild tb dep.build).isNone = true ↔
        ¬ ∃ a ∈ tb.builds, a.name = dep.build := by
      simp [tupbuildFindBuild]
    unfold checkDepends
    split
    · next h =>
      have hno := hfind.1 h
      simp only [reduceCtorEq, false_iff, not_and]
      intro hall
      exact absurd (hall dep List.mem_cons_self) hno
    · next h =>
      have hyes := not_not.1 (mt hfind.2 h)
      split
      · next hany =>
        obtain ⟨d, hd, has⟩ := List.any_eq_true.1 hany
        simp only [reduceCtorEq, List.map_cons, List.nodup_cons, false_iff, not_and]
        intro _ hnot
        exact absurd (of_decide_eq_true has ▸ List.mem_map_of_mem hd) hnot
      · next hany =>
        have hnot : dep.as ∉ rest.map TupbuildDep.as := by
          intro hmem
          obtain ⟨d, hd, has⟩ := List.mem_map.1 hmem
          exact hany (List.any_eq_true.2 ⟨d, hd, decide_eq_true has⟩)
        rw [ih, List.forall_mem_cons, List.map_cons, List.nodup_cons]
        tauto

theorem tupbuildChecks_ok_iff {tb : TupbuildFile} {builds : List TupbuildBuild} :
    tupbuildChecks tb builds = .ok () ↔ (builds.map TupbuildBuild.name).Nodup ∧
      (builds.map TupbuildBuild.builddir).Nodup ∧
      ∀ b ∈ builds, (∀ dep ∈ b.depends, ∃ a ∈ tb.builds, a.name = dep.build) ∧
        (b.depends.map TupbuildDep.as).Nodup := by
  induction builds with
  | nil => simp [tupbuildChecks]
  | cons build rest ih =>
    have hbind : tupbuildChecks tb (build :: rest) = .ok () ↔ checkDistinct build rest = .ok () ∧
        checkDepends tb build.name build.depends = .ok () ∧ tupbuildChecks tb rest = .ok () := by
      rw [tupbuildChecks]
      simp only [bind, Except.bind]
      cases checkDistinct build rest with
      | error err => simp
      | ok u =>
        cases checkDepends tb build.name build.depends with
        | error err => simp
        | ok u => simp
    rw [hbind, checkDistinct_ok_iff, checkDepends_ok_iff, ih]
    simp only [List.map_cons, List.nodup_cons, List.forall_mem_cons]
    tauto

/-! ### Arguments -/

/-- The names that have a value. -/
def HasKeys (v : Vardb) (keys : List Text) : Prop := ∀ k, (v k).isSome = true ↔ k ∈ keys

theorem HasKeys.set {v : Vardb} {keys : List Text} (h : HasKeys v keys) (key value : Text) :
    HasKeys (vardbSet v key value) (key :: keys) := by
  intro k
  rw [vardbSet_apply, List.mem_cons]
  by_cases hk : k = key
  · simp [hk]
  · simp [hk, h k]

theorem HasKeys.congr {v : Vardb} {keys keys' : List Text} (h : HasKeys v keys)
    (hkeys : ∀ k, k ∈ keys ↔ k ∈ keys') : HasKeys v keys' :=
  fun k => (h k).trans (hkeys k)

theorem setBuildArgs_spec {v : Vardb} {keys : List Text} (h : HasKeys v keys)
    (args : List (Text × Text)) :
    ((args.foldlM (setBuildArg some) v).isSome = true ↔
        ∀ key ∈ args.map Prod.fst, isReserved key = false) ∧
      ∀ out, args.foldlM (setBuildArg some) v = some out → HasKeys out (args.map Prod.fst ++ keys) := by
  induction args generalizing v keys with
  | nil => simpa using h
  | cons arg args ih =>
    rw [List.foldlM_cons]
    cases hk : isReserved arg.1 with
    | true => simp [setBuildArg, hk]
    | false =>
      have hset : setBuildArg some v arg = some (vardbSet v arg.1 arg.2) := by simp [setBuildArg, hk]
      obtain ⟨hsome, hkeys⟩ := ih (h.set arg.1 arg.2)
      rw [hset]
      refine ⟨by simpa [hk] using hsome, fun out hout => (hkeys out hout).congr fun k => ?_⟩
      simp only [List.mem_append, List.mem_cons, List.map_cons]
      tauto

theorem setProfile_spec {v : Vardb} {keys : List Text} (h : HasKeys v keys) (profile : Option Text) :
    ((setProfile v profile).isSome = true ↔ ∀ p, profile = some p → isReserved p = false) ∧
      ∀ out, setProfile v profile = some out → HasKeys out (profile.toList ++ keys) := by
  cases profile with
  | none => simpa [setProfile] using h
  | some p =>
    cases hp : isReserved p with
    | true => simp [setProfile, hp]
    | false =>
      have hset : setProfile v (some p) = some (vardbSet v p "true".toList) := by simp [setProfile, hp]
      rw [hset]
      refine ⟨by simp [hp], fun out hout => ?_⟩
      cases hout
      exact h.set p _

theorem setDepends_spec {tb : TupbuildFile} {v : Vardb} {keys : List Text} (h : HasKeys v keys)
    {depends : List TupbuildDep} (hknown : ∀ dep ∈ depends, ∃ a ∈ tb.builds, a.name = dep.build) :
    (depends.foldlM (setDepend tb) v).isSome = true ↔ (depends.map TupbuildDep.as).Nodup ∧
      ∀ as ∈ depends.map TupbuildDep.as, isReserved as = false ∧ as ∉ keys := by
  induction depends generalizing v keys with
  | nil => simp
  | cons dep depends ih =>
    have hfind : (tb.builds.find? (·.name = dep.build)).isSome = true := by
      simpa using hknown dep List.mem_cons_self
    obtain ⟨found, hfound⟩ := Option.isSome_iff_exists.1 hfind
    rw [List.foldlM_cons]
    by_cases hbad : isReserved dep.as = true ∨ dep.as ∈ keys
    · have hset : setDepend tb v dep = none := by
        rcases hbad with hbad | hbad
        · simp [setDepend, hfound, hbad]
        · simp [setDepend, hfound, (h dep.as).2 hbad]
      rw [hset]
      simp only [Option.bind_eq_bind, Option.bind_none, Option.isSome_none, Bool.false_eq_true,
        false_iff, not_and]
      intro _ hall
      obtain ⟨hres, hkey⟩ := hall dep.as List.mem_cons_self
      rcases hbad with hbad | hbad
      · simp [hbad] at hres
      · exact hkey hbad
    · rw [not_or] at hbad
      have hnone : (v dep.as).isSome = false := by
        rw [Bool.eq_false_iff]
        exact fun hs => hbad.2 ((h dep.as).1 hs)
      have hset : setDepend tb v dep = some (vardbSet v dep.as found.builddir) := by
        simp [setDepend, hfound, hbad.1, hnone]
      have hrest := ih (h.set dep.as found.builddir) fun d hd => hknown d (List.mem_cons_of_mem dep hd)
      rw [hset, Option.bind_eq_bind, Option.bind_some, hrest]
      simp only [List.map_cons, List.nodup_cons, List.mem_cons, not_or, forall_eq_or_imp]
      constructor
      · rintro ⟨hnodup, hall⟩
        exact ⟨⟨fun hmem => (hall dep.as hmem).2.1 rfl, hnodup⟩,
          ⟨by simpa using hbad.1, hbad.2⟩, fun as has => ⟨(hall as has).1, (hall as has).2.2⟩⟩
      · rintro ⟨⟨hnot, hnodup⟩, -, hall⟩
        exact ⟨hnodup, fun as has => ⟨(hall as has).1, fun heq => hnot (heq ▸ has), (hall as has).2⟩⟩

theorem tupbuildArgs_isSome_iff {tb : TupbuildFile} (hglobal : tb.globalArgs = []) {b : TupbuildBuild}
    (hknown : ∀ dep ∈ b.depends, ∃ a ∈ tb.builds, a.name = dep.build) :
    (tupbuildArgs some tb b).isSome = true ↔
      ArgsOk b.profile b.args (b.depends.map TupbuildDep.as) := by
  have hinit : HasKeys vardbInit [] := fun k => by simp [vardbInit]
  obtain ⟨hargs, hargsKeys⟩ := setBuildArgs_spec hinit b.args
  unfold tupbuildArgs
  rw [hglobal]
  simp only [List.foldlM_nil, Option.pure_def, Option.bind_eq_bind, Option.bind_some]
  cases hv : b.args.foldlM (setBuildArg some) vardbInit with
  | none =>
    rw [hv] at hargs
    simp only [Option.bind_none, Option.isSome_none, Bool.false_eq_true, false_iff] at hargs ⊢
    exact fun hok => hargs hok.reserved
  | some v =>
    have hreserved := hargs.1 (by rw [hv]; rfl)
    obtain ⟨hprofile, hprofileKeys⟩ := setProfile_spec (hargsKeys v hv) b.profile
    rw [Option.bind_some]
    cases hw : setProfile v b.profile with
    | none =>
      rw [hw] at hprofile
      simp only [Option.bind_none, Option.isSome_none, Bool.false_eq_true, false_iff] at hprofile ⊢
      exact fun hok => hprofile hok.profileOk
    | some w =>
      have hprofileOk := hprofile.1 (by rw [hw]; rfl)
      have hdepends := setDepends_spec (hprofileKeys w hw) hknown
      rw [Option.bind_some, Option.isSome_bind]
      simp only [Option.isSome_some, Option.any_true]
      rw [hdepends]
      simp only [List.mem_append, Option.mem_toList, List.append_nil, not_or]
      constructor
      · rintro ⟨hnodup, hall⟩
        exact ⟨hreserved, hprofileOk, hnodup, fun as has =>
          ⟨(hall as has).1, (hall as has).2.2, (hall as has).2.1⟩⟩
      · intro hok
        exact ⟨hok.distinct, fun as has => ⟨(hok.free as has).1, (hok.free as has).2.2,
          (hok.free as has).2.1⟩⟩

/-! ### The whole file -/

/-- The ordering loop finds an order when there is no cycle. -/
theorem tupbuildOrder_iff {tb : TupbuildFile} (hnames : (tb.builds.map TupbuildBuild.name).Nodup)
    (hknown : ∀ b ∈ tb.builds, ∀ dep ∈ b.depends, ∃ a ∈ tb.builds, a.name = dep.build) :
    (∀ fuel, tb.builds.length < fuel → ∃ order, tupbuildOrder tb fuel = some (some order)) ↔
      ¬ ∃ x, TransGen (DependsOn tb) x x := by
  have hrun : ∀ fuel, tb.builds.length < fuel →
      (tupbuildOrder tb fuel = some none ↔ ∃ x, TransGen (DependsOn tb) x x) ∧
        ((¬ ∃ x, TransGen (DependsOn tb) x x) → ∃ order, tupbuildOrder tb fuel = some (some order)) := by
    intro fuel hfuel
    have hlt : (List.range tb.builds.length).length < fuel := by
      rw [List.length_range]
      exact hfuel
    obtain ⟨hcycle, horder⟩ := Kahn.run_init List.nodup_range
      (fun y hy => sum_edgeCount hnames hknown (List.mem_range.1 hy)) hlt
    rw [cycle_iff] at hcycle horder
    refine ⟨hcycle, fun hno => ?_⟩
    obtain ⟨order, hrun, -⟩ := horder hno
    exact ⟨order, hrun⟩
  constructor
  · intro h hcycle
    obtain ⟨order, horder⟩ := h (tb.builds.length + 1) (Nat.lt_succ_self _)
    rw [(hrun _ (Nat.lt_succ_self _)).1.2 hcycle] at horder
    cases horder
  · intro hno fuel hfuel
    exact (hrun fuel hfuel).2 hno

/-- A build of this name has an entry for the other name. -/
def NameDepends (builds : List TupbuildBuild) (n m : Text) : Prop :=
  ∃ b ∈ builds, b.name = n ∧ ∃ dep ∈ b.depends, dep.build = m

/-- A cycle of builds is a cycle of names. -/
theorem cycle_names_iff {tb : TupbuildFile} (hnames : (tb.builds.map TupbuildBuild.name).Nodup)
    (hknown : ∀ b ∈ tb.builds, ∀ dep ∈ b.depends, ∃ a ∈ tb.builds, a.name = dep.build) :
    (∃ x, TransGen (DependsOn tb) x x) ↔ ∃ n, TransGen (NameDepends tb.builds) n n := by
  constructor
  · rintro ⟨x, hx⟩
    refine ⟨_, hx.lift (fun x => ((tb.builds[x]?).map TupbuildBuild.name).getD []) ?_⟩
    rintro i j ⟨b, a, hb, ha, dep, hdep, hname⟩
    simp only [Function.onFun]
    rw [hb, ha]
    exact ⟨b, List.mem_of_getElem? hb, rfl, dep, hdep, hname⟩
  · rintro ⟨n, hn⟩
    -- a name stands for the first build that has it
    have hfind : ∀ {b}, b ∈ tb.builds →
        tb.builds[tb.builds.findIdx (·.name = b.name)]? = some b := by
      intro b hb
      have hlt : tb.builds.findIdx (·.name = b.name) < tb.builds.length :=
        List.findIdx_lt_length_of_exists ⟨b, hb, decide_eq_true rfl⟩
      have hname : tb.builds[tb.builds.findIdx (·.name = b.name)].name = b.name := by
        simpa using List.findIdx_getElem (w := hlt)
      rw [List.getElem?_eq_getElem hlt]
      exact congrArg some (List.inj_on_of_nodup_map hnames (List.getElem_mem hlt) hb hname)
    refine ⟨_, hn.lift (fun n => tb.builds.findIdx (·.name = n)) ?_⟩
    rintro n m ⟨b, hb, rfl, dep, hdep, rfl⟩
    simp only [Function.onFun]
    obtain ⟨a, ha, hname⟩ := hknown b hb dep hdep
    refine ⟨b, a, hfind hb, ?_, dep, hdep, hname.symm⟩
    rw [← hname]
    exact hfind ha

/-- A file without global arguments passes the checks when it is well formed. -/
theorem passesChecks_iff {tb : TupbuildFile} (hglobal : tb.globalArgs = []) :
    PassesChecks tb ↔ WellFormed tb := by
  constructor
  · rintro ⟨hparsed, hchecks, horder, hargs⟩
    obtain ⟨hnames, hdirs, hdeps⟩ := tupbuildChecks_ok_iff.1 hchecks
    have hknown := fun b hb => (hdeps b hb).1
    exact ⟨hparsed.nonempty, hparsed.builds, hnames, hdirs, hknown,
      fun b hb => (tupbuildArgs_isSome_iff hglobal (hknown b hb)).1 (hargs b hb),
      (tupbuildOrder_iff hnames hknown).1 horder⟩
  · intro h
    refine ⟨⟨h.nonempty, by rw [hglobal]; exact List.nodup_nil, h.accepted⟩, ?_, ?_, ?_⟩
    · exact tupbuildChecks_ok_iff.2 ⟨h.names, h.builddirs, fun b hb =>
        ⟨h.known b hb, (h.args b hb).distinct⟩⟩
    · exact (tupbuildOrder_iff h.names h.known).2 h.acyclic
    · exact fun b hb => (tupbuildArgs_isSome_iff hglobal (h.known b hb)).2 (h.args b hb)

end Metatup
