import Mathlib.Data.Char
import Metatup.Db.CreateSpec
import Metatup.Lib.Join
import Metatup.Lib.Merge
import Metatup.Vars.Vardict

/-!
# The variables of a `tup.config`

The variables of a variant are nodes below its `tup.config`, with their values in a table of their own.
When the file is read again its variables are compared with those of the database, in one walk through
both; the ones that are gone are removed, and only what has changed is flagged.

* `Synced`: what has been done when some of the variables are as in the file.
* `read_vars_flags`: which nodes reading a file flags, and which links it drops.
-/

namespace Metatup

open Lib

/-- A name in a file, as the text that a node has for it. -/
def toText (name : Bytes) : Text := name.map fun b => Char.ofNat b

/-- The database, the `var` table, the vardict files, `tup_db_var_changed` and the variables that have
been looked up in this process. A variant is known by its `tup.config`; the values of environment
variables are not in the table. -/
structure VarStore where
  db : Db
  var : TupId → Option Bytes := fun _ => none
  vardict : TupId → Option Bytes := fun _ => none
  varChanged : ℕ := 0
  /-- Source: `variant.h` `vdb` -/
  vdb : TupId → Text → Option (TupId × Bytes) := fun _ _ => none

/-- What is asked of `tup_db_create_node` and `node_insert` for a variable. -/
def varRow (type : NodeType) (dt : TupId) (name : Text) : TupEntry :=
  { tupid := 0, dt := dt, type := type, name := name }

/-! ### One variable -/

/-- Source: `db.c` `tup_db_set_var` -/
def tupDbSetVar (s : VarStore) (i : TupId) (value : Bytes) : VarStore :=
  { s with var := Function.update s.var i (some value) }

/-- Source: `db.c` `delete_var_entry` -/
def deleteVarEntry (s : VarStore) (i : TupId) : VarStore :=
  { s with var := Function.update s.var i none }

/-- Source: `db.c` `var_flag_dirs` -/
def varFlagDirs (db : Db) (i : TupId) : Db :=
  db.setFlags { db.flags with create := db.flags.create ∪ dependents db i (· = .dir) }

/-- Source: `db.c` `remove_var_tupid`, and `remove_var` with the node of the entry. -/
def removeVarTupid (s : VarStore) (i : TupId) : Option VarStore := do
  let s := { s with varChanged := s.varChanged + 1 }
  let s := deleteVarEntry { s with db := tupDbModifyCmdsByInput (varFlagDirs s.db i) i } i
  let db ← deleteNameFile s.db i
  return { s with db := db }

/-- Source: `db.c` `add_var` -/
def addVar (fuel : ℕ) (s : VarStore) (dt : TupId) (name : Text) (value : Bytes) : Option VarStore := do
  let s := { s with varChanged := s.varChanged + 1 }
  let (db, i, _) ← tupDbCreateNodePartDisplay fuel s.db (varRow .var dt name)
  return tupDbSetVar { s with db := db } i value

/-- Source: `db.c` `compare_vars`; `vea` is a node of the database with its value. -/
def compareVars (s : VarStore) (vea : TupEntry × Bytes) (veb : Bytes) : Option VarStore :=
  if vea.1.type = .var ∧ vea.2 = veb then some s
  else do
    let s := { s with varChanged := s.varChanged + 1 }
    let tent ← tupEntryAdd s.db vea.1.tupid
    return tupDbSetVar { s with db := (s.db.addCreate tent.tupid).addModify tent.tupid } tent.tupid veb

/-! ### All variables -/

/-- The rows that `tup_db_get_vardb` selects. -/
def vardbRows (s : VarStore) (dt : TupId) : List (Text × TupEntry × Bytes) :=
  (s.db.node.filter (·.dt = dt)).filterMap fun t => (s.var t.tupid).map fun v => (t.name, t, v)

/-- Source: `db.c` `tup_db_get_vardb` -/
def tupDbGetVardb (s : VarStore) (dt : TupId) : SortedTable Text (TupEntry × Bytes) :=
  (vardbRows s dt).foldl (fun vdb e => vdb.set e.1 e.2) .empty

/-- Source: `vardb.c` `vardb_compare`; the lists are what is left of the two trees. -/
def vardbCompare {σ α β : Type} (extraA : σ → Text → α → Option σ) (extraB : σ → Text → β → Option σ)
    (same : σ → Text → α → β → Option σ) : List (Text × α) → List (Text × β) → σ → Option σ
  | [], [], s => some s
  | [], (stb, veb) :: b, s => (extraB s stb veb).bind (vardbCompare extraA extraB same [] b)
  | (sta, vea) :: a, [], s => (extraA s sta vea).bind (vardbCompare extraA extraB same a [])
  | (sta, vea) :: a, (stb, veb) :: b, s =>
    if sta = stb then (same s sta vea veb).bind (vardbCompare extraA extraB same a b)
    else if sta < stb then (extraA s sta vea).bind (vardbCompare extraA extraB same a ((stb, veb) :: b))
    else (extraB s stb veb).bind (vardbCompare extraA extraB same ((sta, vea) :: a) b)
termination_by a b => a.length + b.length

/-- The variables of a file, under the texts of their names. -/
def textEntries (t : VarTree) : List (Text × Bytes) := t.entries.map fun e => (toText e.1, e.2)

/-- The variables of a file that is there or not. -/
def fileTree : Option Bytes → Option VarTree
  | none => some .empty
  | some file => getFileVarTree file

/-- Source: `db.c` `save_vardict_file`, with what it does to `tup_db_var_changed`. -/
def saveVardict (s : VarStore) (dt : TupId) (t : VarTree) : VarStore :=
  { s with
    vardict := Function.update s.vardict dt (saveVardictFile s.varChanged (s.vardict dt) t)
    varChanged := 0 }

/-- Source: `db.c` `tup_db_read_vars` -/
def tupDbReadVars (fuel : ℕ) (s : VarStore) (dt : TupId) (file : Option Bytes) : Option VarStore := do
  let t ← fileTree file
  let s ← vardbCompare (fun s _ vea => removeVarTupid s vea.1.tupid)
    (fun s name veb => addVar fuel s dt name veb) (fun s _ vea veb => compareVars s vea veb)
    (tupDbGetVardb s dt).entries (textEntries t) s
  return saveVardict s dt t

/-- Source: `db.c` `tup_db_delete_tup_config` -/
def tupDbDeleteTupConfig (s : VarStore) (dt : TupId) : Option VarStore :=
  (getDirEntries s.db dt).foldlM (fun s he => removeVarTupid s he.tupid) s

/-- What `variant_rm` does to the files and to what has been looked up. Source: `variant.c` `variant_rm` -/
def variantRm (s : VarStore) (dt : TupId) : VarStore :=
  { s with
    vardict := Function.update s.vardict dt none
    vdb := Function.update s.vdb dt fun _ => none }

/-! ### The parser asks for a variable -/

section

variable (tupPlatform tupArch : Bytes)

/-- The value of a variable that is not set. -/
def unsetVar (name : Text) : Bytes :=
  if name = "TUP_PLATFORM".toList then tupPlatform
  else if name = "TUP_ARCH".toList then tupArch
  else []

/-- The node of a variable; a ghost when there is none yet. -/
def varNode (s : VarStore) (dt : TupId) (name : Text) : Option (Db × TupEntry) :=
  match tupDbSelectTent s.db dt name with
  | some tent => some (s.db, tent)
  | none => nodeInsert s.db (varRow .ghost dt name)

/-- The value of a node. Source: `db.c` `get_var_id` -/
def nodeValue (s : VarStore) (tent : TupEntry) (name : Text) : Option Bytes :=
  if tent.type = .var then s.var tent.tupid else some (unsetVar tupPlatform tupArch name)

/-- Source: `db.c` `get_var`; what comes out are the node and the value, as for `tup_db_get_var`. -/
def getVar (s : VarStore) (dt : TupId) (name : Text) : Option (VarStore × TupId × Bytes) :=
  match s.vdb dt name with
  | some ve => some (s, ve)
  | none => do
    let (db, tent) ← varNode s dt name
    let value ← nodeValue tupPlatform tupArch s tent name
    let ve := (tent.tupid, value)
    return ({ s with db := db, vdb := Function.update s.vdb dt (Function.update (s.vdb dt) name ve) }, ve)

end

/-! ### What a file changes -/

/-- The node is that of a variable with this value, or a ghost for a variable without one. -/
def IsVar (s : VarStore) (t : TupEntry) (value : Option Bytes) : Prop :=
  s.var t.tupid = value ∧ t.type = if value = none then .ghost else .var

/-- The value of a variable in the database. -/
def VarStore.value (s : VarStore) (dt : TupId) (name : Text) : Option Bytes :=
  (tupDbSelectTent s.db dt name).bind fun t => if t.type = .var then s.var t.tupid else none

/-- The database of the `tup.config` nodes `D`: below them are variables and ghosts. -/
structure VarStore.Ok (D : Set TupId) (s : VarStore) : Prop where
  sound : s.db.Sound
  owned : ∀ i v, s.var i = some v → HasNode s.db i
  config : ∀ dt ∈ D, HasNode s.db dt
  apart : ∀ t ∈ s.db.node, t.tupid ∈ D → t.dt ∉ D
  vars : ∀ t ∈ s.db.node, t.dt ∈ D → IsVar s t (s.var t.tupid)

section

variable (s₀ : VarStore) (dt : TupId) (new : Text → Option Bytes) (K : Set Text)

/-- The node of one of the variables `K`, with a row of this kind. -/
def NodeOf (P : TupEntry → Prop) (i : TupId) : Prop :=
  ∃ t ∈ s₀.db.node, t.dt = dt ∧ t.name ∈ K ∧ P t ∧ t.tupid = i

/-- A node that is gone when the variables `K` are as in `new`. -/
def VarRemoved (i : TupId) : Prop := NodeOf s₀ dt K (fun t => new t.name = none) i

/-- A node that stays, with another value. -/
def VarTouched (i : TupId) : Prop :=
  NodeOf s₀ dt K (fun t => new t.name ≠ none ∧ s₀.var t.tupid ≠ new t.name) i

/-- A node of this kind that a removed one leads to. -/
def ReadsRemoved (kind : NodeType → Bool) (i : TupId) : Prop :=
  (∃ t ∈ s₀.db.node, t.tupid = i ∧ kind t.type = true) ∧
    ∃ r, VarRemoved s₀ dt new K r ∧ NormalAdj s₀.db r i

/-- The flags `F`, once the variables `K` are as in `new`. -/
def FlagsAfter (kind : NodeType → Bool) (F₀ F : Finset TupId) : Prop :=
  ∀ i, i ∈ F ↔ (i ∈ F₀ ∧ ¬ VarRemoved s₀ dt new K i) ∨ VarTouched s₀ dt new K i ∨
    ReadsRemoved s₀ dt new K kind i

/-- The variables `K` are as in `new`, and everything else is as it was. -/
structure Synced (s : VarStore) : Prop where
  sound : s.db.Sound
  rows : ∀ t, ¬ (t.dt = dt ∧ t.name ∈ K) → (t ∈ s.db.node ↔ t ∈ s₀.db.node)
  done : ∀ t ∈ s.db.node, t.dt = dt → t.name ∈ K → IsVar s t (new t.name)
  there : ∀ k ∈ K, new k ≠ none → ∃ t ∈ s.db.node, t.dt = dt ∧ t.name = k
  var : ∀ t ∈ s.db.node, ¬ (t.dt = dt ∧ t.name ∈ K) → s.var t.tupid = s₀.var t.tupid
  owned : ∀ i v, s.var i = some v → HasNode s.db i
  adj : ∀ a b, NormalAdj s.db a b ↔
    NormalAdj s₀.db a b ∧ ¬ VarRemoved s₀ dt new K a ∧ ¬ VarRemoved s₀ dt new K b
  create : FlagsAfter s₀ dt new K (· = .dir) s₀.db.flags.create s.db.flags.create
  modify : FlagsAfter s₀ dt new K (fun type => type = .cmd || type = .group) s₀.db.flags.modify
    s.db.flags.modify
  changed : s₀.varChanged ≤ s.varChanged
  same : s.varChanged = s₀.varChanged → ∀ t ∈ s₀.db.node, t.dt = dt → t.name ∈ K →
    s₀.var t.tupid = new t.name
  known : s.varChanged = s₀.varChanged → ∀ k ∈ K, new k ≠ none →
    ∃ t ∈ s₀.db.node, t.dt = dt ∧ t.name = k
  vardict : s.vardict = s₀.vardict
  vdb : s.vdb = s₀.vdb

end

section

variable {s₀ s s' : VarStore} {dt : TupId} {new : Text → Option Bytes} {K : Set Text} {k : Text}
  {kind : NodeType → Bool} {F₀ F F' : Finset TupId} {i : TupId} {t : TupEntry}

theorem mem_node_iff {db : Db} (h : db.Sound) : t ∈ db.node ↔ tupEntryAdd db t.tupid = some t :=
  ⟨h.tree.tupEntryAdd_of_mem, fun ht => (mem_node_of_tupEntryAdd ht).1⟩

theorem not_removed_empty : ¬ VarRemoved s₀ dt new ∅ i := by
  rintro ⟨t, -, -, hk, -⟩
  exact hk

theorem nodeOf_insert {P : TupEntry → Prop} : NodeOf s₀ dt (insert k K) P i ↔
    NodeOf s₀ dt K P i ∨ NodeOf s₀ dt {k} P i := by
  constructor
  · rintro ⟨t, ht, hdt, rfl | hk, hP⟩
    · exact .inr ⟨t, ht, hdt, rfl, hP⟩
    · exact .inl ⟨t, ht, hdt, hk, hP⟩
  · rintro (⟨t, ht, hdt, hk, hP⟩ | ⟨t, ht, hdt, hk, hP⟩)
    · exact ⟨t, ht, hdt, .inr hk, hP⟩
    · exact ⟨t, ht, hdt, .inl hk, hP⟩

theorem removed_insert : VarRemoved s₀ dt new (insert k K) i ↔
    VarRemoved s₀ dt new K i ∨ VarRemoved s₀ dt new {k} i := nodeOf_insert

theorem touched_insert : VarTouched s₀ dt new (insert k K) i ↔
    VarTouched s₀ dt new K i ∨ VarTouched s₀ dt new {k} i := nodeOf_insert

theorem reads_insert : ReadsRemoved s₀ dt new (insert k K) kind i ↔
    ReadsRemoved s₀ dt new K kind i ∨ ReadsRemoved s₀ dt new {k} kind i := by
  simp only [ReadsRemoved, removed_insert, or_and_right, exists_or, and_or_left]

namespace Synced

theorem refl (hs : s.db.Sound) (howned : ∀ i v, s.var i = some v → HasNode s.db i) :
    Synced s dt new ∅ s where
  sound := hs
  rows _ _ := Iff.rfl
  done _ _ _ hk := absurd hk (Set.notMem_empty _)
  there _ hk := absurd hk (Set.notMem_empty _)
  var _ _ _ := rfl
  owned := howned
  adj a b := by simp [not_removed_empty]
  create i := by simp [not_removed_empty, VarTouched, NodeOf, ReadsRemoved]
  modify i := by simp [not_removed_empty, VarTouched, NodeOf, ReadsRemoved]
  changed := le_rfl
  same _ _ _ _ hk := absurd hk (Set.notMem_empty _)
  known _ _ hk := absurd hk (Set.notMem_empty _)
  vardict := rfl
  vdb := rfl

/-- A row of another variable is there before just when it is there after. -/
theorem mem_of_name (h : Synced s₀ dt new K s) (hk : k ∉ K) (hname : t.name = k) :
    t ∈ s.db.node ↔ t ∈ s₀.db.node := by
  apply h.rows
  rintro ⟨-, hmem⟩
  exact hk (hname ▸ hmem)

theorem var_of_name (h : Synced s₀ dt new K s) (hk : k ∉ K) (hname : t.name = k)
    (ht : t ∈ s.db.node) : s.var t.tupid = s₀.var t.tupid := by
  apply h.var t ht
  rintro ⟨-, hmem⟩
  exact hk (hname ▸ hmem)

theorem nodeOf_iff (h : Synced s₀ dt new K s) (hk : k ∉ K) {P Q : TupEntry → Prop}
    (hPQ : ∀ t ∈ s.db.node, t.name = k → (P t ↔ Q t)) : NodeOf s dt {k} P i ↔ NodeOf s₀ dt {k} Q i := by
  constructor
  · rintro ⟨t, ht, hdt, hname, hP, hi⟩
    exact ⟨t, (h.mem_of_name hk hname).1 ht, hdt, hname, (hPQ t ht hname).1 hP, hi⟩
  · rintro ⟨t, ht, hdt, hname, hQ, hi⟩
    have ht' := (h.mem_of_name hk hname).2 ht
    exact ⟨t, ht', hdt, hname, (hPQ t ht' hname).2 hQ, hi⟩

theorem removed_iff (h : Synced s₀ dt new K s) (hk : k ∉ K) :
    VarRemoved s dt new {k} i ↔ VarRemoved s₀ dt new {k} i :=
  h.nodeOf_iff hk fun _ _ _ => Iff.rfl

theorem touched_iff (h : Synced s₀ dt new K s) (hk : k ∉ K) :
    VarTouched s dt new {k} i ↔ VarTouched s₀ dt new {k} i :=
  h.nodeOf_iff hk fun t ht hname => by rw [h.var_of_name hk hname ht]

end Synced

theorem IsVar.kind_eq_false {value : Option Bytes} (h : IsVar s t value)
    (hvar : kind .var = false) (hghost : kind .ghost = false) : kind t.type = false := by
  rw [h.2]
  split
  · exact hghost
  · exact hvar

namespace Synced

section

variable (hs₀ : s₀.db.Sound) (h₀ : ∀ t ∈ s₀.db.node, t.dt = dt → IsVar s₀ t (s₀.var t.tupid))
  (h : Synced s₀ dt new K s) (hk : k ∉ K)

include hs₀ hk in
/-- The nodes of two variables are two nodes. -/
theorem not_removed (ht : t ∈ s₀.db.node) (hmem : t.name ∈ K) (hi : t.tupid = i) :
    ¬ VarRemoved s₀ dt new {k} i := by
  rintro ⟨u, hu, -, hname, -, rfl⟩
  obtain rfl := hs₀.tree.eq_of_tupid ht hu hi
  exact hk (hname ▸ hmem)

include hs₀ h₀ in
/-- A node of another kind is not one of a variable. -/
theorem not_removed_of_kind (hvar : kind .var = false) (hghost : kind .ghost = false)
    (ht : t ∈ s₀.db.node) (hi : t.tupid = i) (hkind : kind t.type = true) :
    ¬ VarRemoved s₀ dt new K i := by
  rintro ⟨u, hu, hdt, -, -, rfl⟩
  obtain rfl := hs₀.tree.eq_of_tupid ht hu hi
  rw [(h₀ t ht hdt).kind_eq_false hvar hghost] at hkind
  cases hkind

include hs₀ h₀ h hk in
theorem reads_iff (hvar : kind .var = false) (hghost : kind .ghost = false) :
    ReadsRemoved s dt new {k} kind i ↔ ReadsRemoved s₀ dt new {k} kind i := by
  constructor
  · rintro ⟨⟨t, ht, hi, hkind⟩, r, hr, hadj⟩
    refine ⟨⟨t, (h.rows t ?_).1 ht, hi, hkind⟩, r, (h.removed_iff hk).1 hr, ((h.adj r i).1 hadj).1⟩
    rintro ⟨hdt, hmem⟩
    rw [(h.done t ht hdt hmem).kind_eq_false hvar hghost] at hkind
    cases hkind
  · rintro ⟨⟨t, ht, hi, hkind⟩, r, hr, hadj⟩
    have hr' : ¬ VarRemoved s₀ dt new K r := by
      rintro ⟨u, hu, -, hmem, -, hid⟩
      exact not_removed hs₀ hk hu hmem hid hr
    have hi' : ¬ VarRemoved s₀ dt new K i := not_removed_of_kind hs₀ h₀ hvar hghost ht hi hkind
    refine ⟨⟨t, (h.rows t ?_).2 ht, hi, hkind⟩, r, (h.removed_iff hk).2 hr,
      (h.adj r i).2 ⟨hadj, hr', hi'⟩⟩
    rintro ⟨hdt, -⟩
    rw [(h₀ t ht hdt).kind_eq_false hvar hghost] at hkind
    cases hkind

include hs₀ h₀ h hk in
/-- The flags that two variables set. -/
theorem flagsAfter (hvar : kind .var = false) (hghost : kind .ghost = false)
    (hF : FlagsAfter s₀ dt new K kind F₀ F) (hF' : FlagsAfter s dt new {k} kind F F') :
    FlagsAfter s₀ dt new (insert k K) kind F₀ F' := by
  intro i
  have htouched : VarTouched s₀ dt new K i → ¬ VarRemoved s₀ dt new {k} i := by
    rintro ⟨t, ht, -, hmem, -, hi⟩
    exact not_removed hs₀ hk ht hmem hi
  have hreads : ReadsRemoved s₀ dt new K kind i → ¬ VarRemoved s₀ dt new {k} i := by
    rintro ⟨⟨t, ht, hi, hkind⟩, -⟩
    exact not_removed_of_kind hs₀ h₀ hvar hghost ht hi hkind
  rw [hF' i, hF i, h.removed_iff hk, h.touched_iff hk, h.reads_iff hs₀ h₀ hk hvar hghost,
    removed_insert, touched_insert, reads_insert]
  tauto

include hs₀ h₀ h hk in
/-- One more variable. -/
theorem insert (h' : Synced s dt new {k} s') : Synced s₀ dt new (insert k K) s' where
  sound := h'.sound
  rows t ht := by
    rw [h'.rows t fun hmem => ht ⟨hmem.1, .inl hmem.2⟩, h.rows t fun hmem => ht ⟨hmem.1, .inr hmem.2⟩]
  done t ht hdt hmem := by
    by_cases hname : t.name = k
    · exact h'.done t ht hdt hname
    · have hold := (h'.rows t fun hmem => hname hmem.2).1 ht
      obtain ⟨hvalue, htype⟩ := h.done t hold hdt (hmem.resolve_left hname)
      exact ⟨(h'.var t ht fun hmem => hname hmem.2).trans hvalue, htype⟩
  there j hj hnew := by
    by_cases hname : j = k
    · exact h'.there j hname hnew
    · obtain ⟨t, ht, hdt, rfl⟩ := h.there j (hj.resolve_left hname) hnew
      exact ⟨t, (h'.rows t fun hmem => hname hmem.2).2 ht, hdt, rfl⟩
  var t ht hmem := by
    have hk' : ¬ (t.dt = dt ∧ t.name ∈ ({k} : Set Text)) := fun hmem' => hmem ⟨hmem'.1, .inl hmem'.2⟩
    exact (h'.var t ht hk').trans
      (h.var t ((h'.rows t hk').1 ht) fun hmem' => hmem ⟨hmem'.1, .inr hmem'.2⟩)
  owned := h'.owned
  adj a b := by
    rw [h'.adj, h.adj, h.removed_iff hk, h.removed_iff hk, removed_insert, removed_insert]
    tauto
  create := h.flagsAfter hs₀ h₀ hk (by decide) (by decide) h.create h'.create
  modify := h.flagsAfter hs₀ h₀ hk (by decide) (by decide) h.modify h'.modify
  changed := h.changed.trans h'.changed
  same heq t ht hdt hmem := by
    have hle := h.changed
    have hle' := h'.changed
    by_cases hname : t.name = k
    · have ht' := (h.mem_of_name hk hname).2 ht
      rw [← h.var_of_name hk hname ht']
      exact h'.same (by omega) t ht' hdt hname
    · exact h.same (by omega) t ht hdt (hmem.resolve_left hname)
  known heq j hj hnew := by
    have hle := h.changed
    have hle' := h'.changed
    by_cases hname : j = k
    · obtain ⟨t, ht, hdt, rfl⟩ := h'.known (by omega) j hname hnew
      exact ⟨t, (h.mem_of_name hk hname).1 ht, hdt, rfl⟩
    · exact h.known (by omega) j (hj.resolve_left hname) hnew
  vardict := h'.vardict.trans h.vardict
  vdb := h'.vdb.trans h.vdb

end

end Synced

end

/-! ### One variable is made as in the file -/

section

variable {s s' : VarStore} {db db' : Db} {new : Text → Option Bytes} {t u : TupEntry} {i : TupId}
  {v : Bytes}

/-- A sound database has one node of a name. -/
theorem Db.Sound.tupid_eq_iff (h : db.Sound) (ht : t ∈ db.node) (hu : u ∈ db.node) :
    u.tupid = t.tupid ↔ u.dt = t.dt ∧ u.name = t.name := by
  constructor
  · intro heq
    rw [h.tree.eq_of_tupid hu ht heq]
    exact ⟨rfl, rfl⟩
  · rintro ⟨hdt, hname⟩
    rw [h.tree.names u hu t ht hdt hname]

theorem removed_singleton (h : s.db.Sound) (ht : t ∈ s.db.node) (hnew : new t.name = none) (i : TupId) :
    VarRemoved s t.dt new {t.name} i ↔ i = t.tupid := by
  constructor
  · rintro ⟨u, hu, hdt, hname, -, rfl⟩
    rw [h.tree.names u hu t ht hdt hname]
  · rintro rfl
    exact ⟨t, ht, rfl, rfl, hnew, rfl⟩

theorem not_removed_of_some {dt : TupId} {name : Text} (hnew : new name = some v) (i : TupId) :
    ¬ VarRemoved s dt new {name} i := by
  rintro ⟨u, -, -, huname, hnone, -⟩
  rw [congrArg new huname, hnew] at hnone
  cases hnone

/-- A node that is no directory loses its row, and the flags stay. -/
theorem tupDbDeleteNode_leaf (ht : tupEntryAdd db i = some t) (hdir : t.type ≠ .dir)
    (hdt : HasNode db t.dt) (hsrc : 0 ≤ t.srcid → HasNode db t.srcid) :
    ∃ db', tupDbDeleteNode db i = some db' ∧ db'.flags = db.flags := by
  obtain ⟨parent, hparent⟩ := tupEntryAdd_of_hasNode hdt
  obtain ⟨r, hr⟩ := checkSrcGhost_total hsrc
  unfold tupDbDeleteNode
  simp only [ht, hparent, hr, Option.bind_eq_bind, Option.bind_some]
  split
  · exact ⟨_, rfl, rfl⟩
  · refine ⟨_, rfl, ?_⟩
    rw [tupEntryAddGhostTree_eq]
    rfl

theorem deleteNameFile_leaf (h : db.Sound) (ht : t ∈ db.node) (hgroup : t.type ≠ .group)
    (hdir : t.type ≠ .dir) (hdt : HasNode db t.dt) :
    ∃ db', deleteNameFile db t.tupid = some db' ∧ db'.flags = unflagAll db.flags t.tupid := by
  have hlook := h.tree.tupEntryAdd_of_mem ht
  have hrows := KeepsRows.setFlags db (unflagAll db.flags t.tupid)
  obtain ⟨r, hr⟩ := tupDbDeleteLinks_total (i := t.tupid) (h.referential.toJoined.of_keepsRows hrows)
    hlook hgroup
  have hleaf : ∃ db', tupDbDeleteNode (deleteTableLinks
      { db.setFlags (unflagAll db.flags t.tupid) with ghostRoot := r } t.tupid) t.tupid = some db' ∧
        db'.flags = unflagAll db.flags t.tupid :=
    tupDbDeleteNode_leaf hlook hdir hdt (h.referential.srcid t ht)
  obtain ⟨db', hdb', hflags⟩ := hleaf
  refine ⟨db', ?_, hflags⟩
  unfold deleteNameFile
  rw [hr]
  exact hdb'

/-- The rows when a node has been removed. -/
theorem node_of_deleteNameFile (h : db.Sound) (hdb' : deleteNameFile db i = some db')
    (ht : t ∈ db.node) (hi : t.tupid = i) (u : TupEntry) :
    (u.tupid ≠ i → (u ∈ db'.node ↔ u ∈ db.node)) ∧
      (u.tupid = i → u ∈ db'.node → u.dt = t.dt ∧ u.name = t.name ∧ u.type = .ghost) := by
  obtain ⟨-, hrow, hlast, -⟩ := deleteNameFile_spec hdb'
  have h' : db'.Sound := h.shrinks (shrinks_deleteNameFile hdb')
  constructor
  · intro hne
    rw [mem_node_iff h', mem_node_iff h, hrow _ hne]
  · rintro hui hu
    rw [mem_node_iff h', hui] at hu
    have hlook := h.tree.tupEntryAdd_of_mem ht
    rw [hi] at hlook
    rcases hlast with hnone | hghost
    · rw [hnone] at hu
      cases hu
    · rw [hu, hlook] at hghost
      have hcore : u.core = t.ghostly := Option.some.inj hghost
      have hdt : u.core.dt = t.ghostly.dt := by rw [hcore]
      have hname : u.core.name = t.ghostly.name := by rw [hcore]
      have htype : u.core.type = t.ghostly.type := by rw [hcore]
      exact ⟨hdt, hname, htype⟩

/-- The flags of the readers of a variable that is removed. -/
theorem flagsAfter_removed {kind : NodeType → Bool} {F : Finset TupId} (h : s.db.Sound)
    (ht : t ∈ s.db.node) (hnew : new t.name = none) (hkind : kind t.type = false) :
    FlagsAfter s t.dt new {t.name} kind F ((F ∪ dependents s.db t.tupid kind).erase t.tupid) := by
  have hremoved : ∀ i, VarRemoved s t.dt new {t.name} i ↔ i = t.tupid := removed_singleton h ht hnew
  intro i
  have htouched : ¬ VarTouched s t.dt new {t.name} i := by
    rintro ⟨u, -, -, hname, hne, -⟩
    exact hne.1 ((congrArg new hname).trans hnew)
  rw [Finset.mem_erase, Finset.mem_union, mem_dependents]
  simp only [ReadsRemoved, hremoved, htouched, exists_eq_left, false_or]
  constructor
  · rintro ⟨hne, hF | ⟨hadj, u, hu, hk⟩⟩
    · exact .inl ⟨hF, hne⟩
    · obtain ⟨hmem, hid⟩ := mem_node_of_tupEntryAdd hu
      exact .inr ⟨⟨u, hmem, hid, hk⟩, hadj⟩
  · rintro (⟨hF, hne⟩ | ⟨⟨u, hu, rfl, hk⟩, hadj⟩)
    · exact ⟨hne, .inl hF⟩
    · refine ⟨?_, .inr ⟨hadj, u, h.tree.tupEntryAdd_of_mem hu, hk⟩⟩
      intro heq
      obtain rfl := h.tree.eq_of_tupid hu ht heq
      rw [hkind] at hk
      cases hk

/-- A variable is removed. -/
theorem removeVarTupid_synced (h : s.db.Sound) (howned : ∀ i v, s.var i = some v → HasNode s.db i)
    (ht : t ∈ s.db.node) (hdt : HasNode s.db t.dt) (hkind : t.type = .var ∨ t.type = .ghost)
    (hnew : new t.name = none) :
    ∃ s', removeVarTupid s t.tupid = some s' ∧ Synced s t.dt new {t.name} s' := by
  let m := tupDbModifyCmdsByInput (varFlagDirs s.db t.tupid) t.tupid
  have hm : KeepsRows s.db m := (KeepsRows.setFlags s.db _).trans (.setFlags _ _)
  have hms : m.Sound := h.shrinks (.of_keepsRows hm)
  have htype : t.type ≠ .group ∧ t.type ≠ .dir ∧ t.type ≠ .cmd := by
    rcases hkind with hkind | hkind
    all_goals
      rw [hkind]
      decide
  obtain ⟨db', hdb', hflags⟩ := deleteNameFile_leaf hms (hm.node ▸ ht) htype.1 htype.2.1
    ((hm.hasNode _).2 hdt)
  have hrow := node_of_deleteNameFile hms hdb' (hm.node ▸ ht) rfl
  rw [hm.node] at hrow
  obtain ⟨-, -, -, hadj, -⟩ := deleteNameFile_spec hdb'
  have hremoved : ∀ i, VarRemoved s t.dt new {t.name} i ↔ i = t.tupid := removed_singleton h ht hnew
  have hother : ∀ u, ¬ (u.dt = t.dt ∧ u.name ∈ ({t.name} : Set Text)) → u ∈ s.db.node →
      u.tupid ≠ t.tupid := fun u hu hmem heq => hu ((h.tupid_eq_iff ht hmem).1 heq)
  have hother' : ∀ u, ¬ (u.dt = t.dt ∧ u.name ∈ ({t.name} : Set Text)) → u ∈ db'.node →
      u.tupid ≠ t.tupid := by
    intro u hu hmem heq
    obtain ⟨hdt, hname, -⟩ := (hrow u).2 heq hmem
    exact hu ⟨hdt, hname⟩
  have hid : ∀ u ∈ db'.node, u.dt = t.dt → u.name = t.name → u.tupid = t.tupid := by
    intro u hu hudt huname
    by_contra hne
    exact hne ((h.tupid_eq_iff ht (((hrow u).1 hne).1 hu)).2 ⟨hudt, huname⟩)
  refine ⟨{ s with
    db := db', var := Function.update s.var t.tupid none, varChanged := s.varChanged + 1 }, ?_, ?_⟩
  · show ((deleteNameFile m t.tupid).bind _) = _
    rw [hdb']
    rfl
  · exact {
      sound := hms.shrinks (shrinks_deleteNameFile hdb')
      rows := fun u hu => by
        by_cases hi : u.tupid = t.tupid
        · exact iff_of_false (fun hmem => hother' u hu hmem hi) fun hmem => hother u hu hmem hi
        · exact (hrow u).1 hi
      done := fun u hu hudt huname => by
        have hi := hid u hu hudt huname
        have hnew' : new u.name = none := (congrArg new huname).trans hnew
        rw [hnew']
        exact ⟨(congrArg _ hi).trans (Function.update_self _ _ _), ((hrow u).2 hi hu).2.2⟩
      there := fun k hk hne => absurd ((congrArg new hk).trans hnew) hne
      var := fun u hu hk => Function.update_of_ne (hother' u hk hu) _ _
      owned := fun i w hw => by
        by_cases hi : i = t.tupid
        · dsimp only at hw
          rw [hi, Function.update_self] at hw
          cases hw
        · dsimp only at hw
          rw [Function.update_of_ne hi] at hw
          obtain ⟨u, hu, rfl⟩ := hasNode_iff.1 (howned i w hw)
          exact hasNode_iff.2 ⟨u, ((hrow u).1 hi).2 hu, rfl⟩
      adj := fun a b => by
        rw [hremoved, hremoved]
        exact hadj a b
      create := by
        have hcreate : db'.flags.create = (s.db.flags.create ∪
            dependents s.db t.tupid (· = .dir)).erase t.tupid := congrArg Flags.create hflags
        show FlagsAfter _ _ _ _ _ _ db'.flags.create
        rw [hcreate]
        exact flagsAfter_removed h ht hnew (by simp [htype.2.1])
      modify := by
        have hmodify : db'.flags.modify = (s.db.flags.modify ∪ dependents s.db t.tupid
            fun type => type = .cmd || type = .group).erase t.tupid := congrArg Flags.modify hflags
        show FlagsAfter _ _ _ _ _ _ db'.flags.modify
        rw [hmodify]
        exact flagsAfter_removed h ht hnew (by simp [htype.1, htype.2.2])
      changed := Nat.le_succ _
      same := fun heq => absurd heq (Nat.succ_ne_self _)
      known := fun heq => absurd heq (Nat.succ_ne_self _)
      vardict := rfl
      vdb := rfl }

/-- The node of this name, if there is one. -/
def Named (db : Db) (dt : TupId) (name : Text) (i : TupId) : Prop :=
  ∃ u ∈ db.node, u.dt = dt ∧ u.name = name ∧ u.tupid = i

/-- The node of a variable is there, and flagged if it was there before. -/
structure NamesVar (db : Db) (dt : TupId) (name : Text) (db' : Db) (i : TupId) : Prop where
  sound : db'.Sound
  rows : ∀ u, ¬ (u.dt = dt ∧ u.name = name) → (u ∈ db'.node ↔ u ∈ db.node)
  row : ∃ t ∈ db'.node, t.tupid = i ∧ t.dt = dt ∧ t.name = name ∧ t.type = .var
  old : ∀ u ∈ db.node, u.tupid = i ↔ u.dt = dt ∧ u.name = name
  links : db'.normalLink = db.normalLink
  create : ∀ j, j ∈ db'.flags.create ↔ j ∈ db.flags.create ∨ Named db dt name j
  modify : ∀ j, j ∈ db'.flags.modify ↔ j ∈ db.flags.modify ∨ Named db dt name j

/-- The flag of the node of a name. -/
theorem Db.Sound.mem_insert_iff (h : db.Sound) (ht : t ∈ db.node) {F : Finset TupId} {j : TupId} :
    j ∈ insert t.tupid F ↔ j ∈ F ∨ Named db t.dt t.name j := by
  rw [Finset.mem_insert, or_comm]
  refine or_congr Iff.rfl ⟨?_, ?_⟩
  · rintro rfl
    exact ⟨t, ht, rfl, rfl, rfl⟩
  · rintro ⟨u, hu, hdt, hname, rfl⟩
    exact (h.tupid_eq_iff ht hu).2 ⟨hdt, hname⟩

theorem Db.Sound.createVar {dt : TupId} {type : NodeType} {name : Text} {fuel : ℕ} {b : Bool}
    (h : db.Sound) (hdt : HasNode db dt)
    (hrun : tupDbCreateNodePartDisplay fuel db (varRow type dt name) = some (db', i, b)) : db'.Sound := by
  have hsrcid : ¬ (0 : TupId) ≤ (varRow type dt name).srcid := (by decide : ¬ (0 : TupId) ≤ -1)
  exact h.createNode hdt (fun hsrc => absurd hsrc hsrcid) (fun _ _ _ hsrc => absurd hsrc hsrcid) hrun

/-- A node is inserted. -/
theorem namesVar_insert {dt : TupId} {name : Text} (h : db.Sound) (hdt : HasNode db dt)
    (hsel : tupDbSelectTent db dt name = none) (fuel : ℕ) : ∃ db' i b,
      tupDbCreateNodePartDisplay (fuel + 1) db (varRow .var dt name) = some (db', i, b) ∧
        NamesVar db dt name db' i := by
  let tent : TupEntry := { varRow .var dt name with tupid := newNodeId db }
  have hrun : tupDbCreateNodePartDisplay (fuel + 1) db (varRow .var dt name) =
      some ({ db with node := db.node ++ [tent] }, tent.tupid, true) := by
    have hinsert : nodeInsert db (varRow .var dt name) =
        some ({ db with node := db.node ++ [tent] }, tent) := by
      unfold nodeInsert tupDbNodeInsertTentDisplay
      rw [show tupDbSelectTent db (varRow .var dt name).dt (varRow .var dt name).name = none from hsel]
      rfl
    rw [create_none fuel hsel, hinsert]
    rfl
  have hfree : ∀ u ∈ db.node, ¬ (u.dt = dt ∧ u.name = name) := by
    intro u hu
    simpa using List.find?_eq_none.1 hsel u hu
  have hnamed : ∀ j, ¬ Named db dt name j := by
    rintro j ⟨u, hu, hudt, huname, -⟩
    exact hfree u hu ⟨hudt, huname⟩
  have hold : ∀ u ∈ db.node, u.tupid ≠ newNodeId db := fun u hu => (lt_newNodeId db hu).ne
  refine ⟨_, _, _, hrun, ?_⟩
  exact {
    sound := h.createVar hdt hrun
    rows := fun u hu => by
      rw [List.mem_append, List.mem_singleton, or_iff_left]
      rintro rfl
      exact hu ⟨rfl, rfl⟩
    row := ⟨tent, List.mem_append_right _ (List.mem_singleton_self _), rfl, rfl, rfl, rfl⟩
    old := fun u hu => iff_of_false (hold u hu) (hfree u hu)
    links := rfl
    create := fun j => (or_iff_left (hnamed j)).symm
    modify := fun j => (or_iff_left (hnamed j)).symm }

/-- A ghost becomes the node of the variable. -/
theorem namesVar_upgrade {dt : TupId} {name : Text} (h : db.Sound) (hdt : HasNode db dt)
    (hsel : tupDbSelectTent db dt name = some t) (hghost : t.type = .ghost) (fuel : ℕ) : ∃ db' i b,
      tupDbCreateNodePartDisplay (fuel + 1) db (varRow .var dt name) = some (db', i, b) ∧
        NamesVar db dt name db' i := by
  obtain ⟨ht, rfl, rfl⟩ := mem_of_tupDbSelectTent hsel
  have hrun : tupDbCreateNodePartDisplay (fuel + 1) db (varRow .var t.dt t.name) =
      upgradeGhost db t .var (-1) := create_ghost fuel hsel hghost
  have hup : upgradeGhost db t .var (-1) = some ({ tupDbSetSrcid (tupDbSetType
      ((db.addCreate t.tupid).addModify t.tupid) t.tupid .var) t.tupid (-1) with
      variants := db.variants.filter (·.dtnode ≠ t.tupid) }, t.tupid, true) := rfl
  have hsound := h.createVar hdt (hrun.trans hup)
  have hrow : ∀ j, tupEntryAdd (tupDbSetSrcid (tupDbSetType
      ((db.addCreate t.tupid).addModify t.tupid) t.tupid .var) t.tupid (-1)) j =
      if j = t.tupid then some { t with type := .var, srcid := -1 } else tupEntryAdd db j := by
    intro j
    rw [tupEntryAdd_setSrcid, tupEntryAdd_setType]
    split
    · next hj =>
      rw [show tupEntryAdd ((db.addCreate t.tupid).addModify t.tupid) j = tupEntryAdd db j from rfl, hj,
        h.tree.tupEntryAdd_of_mem ht]
      rfl
    · rfl
  refine ⟨_, _, _, hrun.trans hup, ?_⟩
  exact {
    sound := hsound
    rows := fun u hu => by
      by_cases hi : u.tupid = t.tupid
      · refine iff_of_false (fun hmem => hu ?_) fun hmem => hu ((h.tupid_eq_iff ht hmem).1 hi)
        have hlook := (hrow u.tupid).symm.trans (hsound.tree.tupEntryAdd_of_mem hmem)
        rw [if_pos hi] at hlook
        rw [← Option.some.inj hlook]
        exact ⟨rfl, rfl⟩
      · rw [mem_node_iff hsound, mem_node_iff h]
        exact iff_of_eq (congrArg (· = some u) ((hrow u.tupid).trans (if_neg hi)))
    row := ⟨{ t with type := .var, srcid := -1 }, (mem_node_iff hsound).2 ((hrow _).trans (if_pos rfl)),
      rfl, rfl, rfl, rfl⟩
    old := fun u hu => h.tupid_eq_iff ht hu
    links := rfl
    create := fun _ => h.mem_insert_iff ht
    modify := fun _ => h.mem_insert_iff ht }

/-- Flags for a variable that is set to a value it did not have. -/
theorem flagsAfter_touched {dt : TupId} {name : Text} {kind : NodeType → Bool} {F F' : Finset TupId}
    (hnew : new name = some v) (hold : ∀ u ∈ s.db.node, u.dt = dt → u.name = name → s.var u.tupid ≠ some v)
    (hF : ∀ j, j ∈ F' ↔ j ∈ F ∨ Named s.db dt name j) :
    FlagsAfter s dt new {name} kind F F' := by
  have hremoved : ∀ i, ¬ VarRemoved s dt new {name} i := not_removed_of_some hnew
  have htouched : ∀ j, VarTouched s dt new {name} j ↔ Named s.db dt name j := by
    intro j
    constructor
    · rintro ⟨u, hu, hudt, huname, -, hj⟩
      exact ⟨u, hu, hudt, huname, hj⟩
    · rintro ⟨u, hu, hudt, huname, hj⟩
      have hval : new u.name = some v := (congrArg new huname).trans hnew
      refine ⟨u, hu, hudt, huname, ⟨?_, ?_⟩, hj⟩
      · rw [hval]
        exact Option.some_ne_none v
      · rw [hval]
        exact hold u hu hudt huname
  intro j
  rw [hF, htouched]
  simp [hremoved, ReadsRemoved]

/-- The variable is set to a value it did not have. -/
theorem setVar_synced {dt : TupId} {name : Text} (hn : NamesVar s.db dt name db' i)
    (howned : ∀ i v, s.var i = some v → HasNode s.db i) (hnew : new name = some v)
    (hold : ∀ u ∈ s.db.node, u.dt = dt → u.name = name → s.var u.tupid ≠ some v) :
    Synced s dt new {name} { s with
      db := db', var := Function.update s.var i (some v), varChanged := s.varChanged + 1 } := by
  obtain ⟨t, ht, hti, htdt, htname, htype⟩ := hn.row
  have hremoved : ∀ i, ¬ VarRemoved s dt new {name} i := not_removed_of_some hnew
  have hone : ∀ u ∈ db'.node, u.dt = dt → u.name = name → u = t := fun u hu hudt huname =>
    hn.sound.tree.names u hu t ht (hudt.trans htdt.symm) (huname.trans htname.symm)
  have hother : ∀ u ∈ db'.node, ¬ (u.dt = dt ∧ u.name ∈ ({name} : Set Text)) → u.tupid ≠ i := by
    intro u hu hne hi
    obtain rfl := hn.sound.tree.eq_of_tupid hu ht (hi.trans hti.symm)
    exact hne ⟨htdt, htname⟩
  exact {
    sound := hn.sound
    rows := hn.rows
    done := fun u hu hudt huname => by
      obtain rfl := hone u hu hudt huname
      have hval : new u.name = some v := (congrArg new htname).trans hnew
      rw [hval]
      exact ⟨(congrArg _ hti).trans (Function.update_self _ _ _), htype⟩
    there := fun k hk _ => ⟨t, ht, htdt, htname.trans hk.symm⟩
    var := fun u hu hne => Function.update_of_ne (hother u hu hne) _ _
    owned := fun j w hw => by
      by_cases hj : j = i
      · exact hasNode_iff.2 ⟨t, ht, hti.trans hj.symm⟩
      · dsimp only at hw
        rw [Function.update_of_ne hj] at hw
        obtain ⟨u, hu, rfl⟩ := hasNode_iff.1 (howned j w hw)
        refine hasNode_iff.2 ⟨u, (hn.rows u ?_).2 hu, rfl⟩
        exact fun hmem => hj ((hn.old u hu).2 hmem)
    adj := fun a b => by
      show _ ∈ db'.normalLink ↔ _
      rw [hn.links, and_iff_left ⟨hremoved a, hremoved b⟩]
      rfl
    create := flagsAfter_touched hnew hold hn.create
    modify := flagsAfter_touched hnew hold hn.modify
    changed := Nat.le_succ _
    same := fun heq => absurd heq (Nat.succ_ne_self _)
    known := fun heq => absurd heq (Nat.succ_ne_self _)
    vardict := rfl
    vdb := rfl }

/-- A new variable is added. -/
theorem addVar_synced {dt : TupId} {name : Text} (h : s.db.Sound)
    (howned : ∀ i v, s.var i = some v → HasNode s.db i) (hdt : HasNode s.db dt)
    (hghost : ∀ u ∈ s.db.node, u.dt = dt → u.name = name → u.type = .ghost ∧ s.var u.tupid = none)
    (hnew : new name = some v) (fuel : ℕ) :
    ∃ s', addVar (fuel + 1) s dt name v = some s' ∧ Synced s dt new {name} s' := by
  obtain ⟨db', i, b, hrun, hn⟩ : ∃ db' i b,
      tupDbCreateNodePartDisplay (fuel + 1) s.db (varRow .var dt name) = some (db', i, b) ∧
        NamesVar s.db dt name db' i := by
    cases hsel : tupDbSelectTent s.db dt name with
    | none => exact namesVar_insert h hdt hsel fuel
    | some t =>
      obtain ⟨ht, htdt, htname⟩ := mem_of_tupDbSelectTent hsel
      exact namesVar_upgrade h hdt hsel (hghost t ht htdt htname).1 fuel
  refine ⟨_, ?_, setVar_synced hn howned hnew ?_⟩
  · show ((tupDbCreateNodePartDisplay (fuel + 1) s.db (varRow .var dt name)).bind _) = _
    rw [hrun]
    rfl
  · intro u hu hudt huname
    rw [(hghost u hu hudt huname).2]
    exact (Option.some_ne_none v).symm

/-- The value of a variable is compared with the one in the file. -/
theorem compareVars_synced {w : Bytes} (h : s.db.Sound)
    (howned : ∀ i v, s.var i = some v → HasNode s.db i) (ht : t ∈ s.db.node) (htype : t.type = .var)
    (hvar : s.var t.tupid = some w) (hnew : new t.name = some v) :
    ∃ s', compareVars s (t, w) v = some s' ∧ Synced s t.dt new {t.name} s' := by
  have hremoved : ∀ i, ¬ VarRemoved s t.dt new {t.name} i := not_removed_of_some hnew
  have hone : ∀ u ∈ s.db.node, u.dt = t.dt → u.name = t.name → u = t := fun u hu hudt huname =>
    h.tree.names u hu t ht hudt huname
  unfold compareVars
  by_cases hsame : w = v
  · -- nothing has to be done
    subst hsame
    rw [if_pos ⟨htype, rfl⟩]
    have hflags : ∀ (kind : NodeType → Bool) (F : Finset TupId),
        FlagsAfter s t.dt new {t.name} kind F F := by
      intro kind F i
      have htouched : ¬ VarTouched s t.dt new {t.name} i := by
        rintro ⟨u, hu, hudt, huname, ⟨-, hne⟩, -⟩
        obtain rfl := hone u hu hudt huname
        exact hne (hvar.trans hnew.symm)
      simp [hremoved, htouched, ReadsRemoved]
    refine ⟨s, rfl, ?_⟩
    exact {
      sound := h
      rows := fun _ _ => Iff.rfl
      done := fun u hu hudt huname => by
        obtain rfl := hone u hu hudt huname
        rw [hnew]
        exact ⟨hvar, htype⟩
      there := fun k hk _ => ⟨t, ht, rfl, hk.symm⟩
      var := fun _ _ _ => rfl
      owned := howned
      adj := fun a b => (and_iff_left ⟨hremoved a, hremoved b⟩).symm
      create := hflags _ _
      modify := hflags _ _
      changed := le_rfl
      same := fun _ u hu hudt huname => by
        obtain rfl := hone u hu hudt huname
        exact hvar.trans hnew.symm
      known := fun _ k hk _ => ⟨t, ht, rfl, hk.symm⟩
      vardict := rfl
      vdb := rfl }
  · rw [if_neg fun hand => hsame hand.2]
    dsimp only
    rw [h.tree.tupEntryAdd_of_mem ht]
    have hn : NamesVar s.db t.dt t.name ((s.db.addCreate t.tupid).addModify t.tupid) t.tupid :=
      { sound := h.shrinks (.of_keepsRows ((KeepsRows.addCreate _ _).trans (.addModify _ _)))
        rows := fun _ _ => Iff.rfl
        row := ⟨t, ht, rfl, rfl, rfl, htype⟩
        old := fun u hu => h.tupid_eq_iff ht hu
        links := rfl
        create := fun _ => h.mem_insert_iff ht
        modify := fun _ => h.mem_insert_iff ht }
    refine ⟨_, rfl, setVar_synced hn howned hnew ?_⟩
    intro u hu hudt huname
    obtain rfl := hone u hu hudt huname
    rw [hvar]
    exact fun heq => hsame (Option.some.inj heq)

end

/-! ### The walk -/

section

variable {σ α β : Type} {extraA : σ → Text → α → Option σ} {extraB : σ → Text → β → Option σ}
  {same : σ → Text → α → β → Option σ}

/-- What `vardb_compare` calls for a name. -/
def compareEntry (extraA : σ → Text → α → Option σ) (extraB : σ → Text → β → Option σ)
    (same : σ → Text → α → β → Option σ) (s : σ) : Text × Option α × Option β → Option σ
  | (name, some vea, some veb) => same s name vea veb
  | (name, some vea, none) => extraA s name vea
  | (name, none, some veb) => extraB s name veb
  | (_, none, none) => some s

/-- `vardb_compare` goes through the names of both trees. -/
theorem vardbCompare_eq (a : List (Text × α)) (b : List (Text × β)) (s : σ) :
    vardbCompare extraA extraB same a b s =
      (join a b).foldlM (compareEntry extraA extraB same) s := by
  induction a, b using join.induct generalizing s with
  | case1 =>
    rw [vardbCompare, join]
    rfl
  | case2 l y b ih =>
    rw [vardbCompare, join, List.foldlM_cons]
    exact congrArg _ (funext ih)
  | case3 k x a ih =>
    rw [vardbCompare, join, List.foldlM_cons]
    exact congrArg _ (funext ih)
  | case4 x a k y b ih =>
    rw [vardbCompare, join, if_pos rfl, if_pos rfl, List.foldlM_cons]
    exact congrArg _ (funext ih)
  | case5 k x a l y b hne hlt ih =>
    rw [vardbCompare, join, if_neg hne, if_neg hne, if_pos hlt, if_pos hlt, List.foldlM_cons]
    exact congrArg _ (funext ih)
  | case6 k x a l y b hne hlt ih =>
    rw [vardbCompare, join, if_neg hne, if_neg hne, if_neg hlt, if_neg hlt, List.foldlM_cons]
    exact congrArg _ (funext ih)

end

/-! ### The variables of a file -/

theorem toNat_ofNat_byte (b : Byte) : (Char.ofNat b).toNat = b := by
  have hvalid : (b : ℕ).isValidChar := .inl (b.isLt.trans (by decide))
  unfold Char.ofNat
  rw [dif_pos hvalid]
  rfl

theorem ofNat_byte_lt {b c : Byte} : Char.ofNat b < Char.ofNat c ↔ b < c := by
  have hlt : ∀ x y : Char, x < y ↔ x.toNat < y.toNat := fun _ _ => Iff.rfl
  rw [hlt, toNat_ofNat_byte, toNat_ofNat_byte, Fin.val_fin_lt]

theorem toText_lt {p q : Bytes} (h : p < q) : toText p < toText q := by
  induction p generalizing q with
  | nil =>
    cases q with
    | nil => exact absurd h (lt_irrefl _)
    | cons c q => exact List.nil_lt_cons _ _
  | cons b p ih =>
    cases q with
    | nil => exact absurd h (List.not_lt_nil _)
    | cons c q =>
      rcases List.cons_lt_cons_iff.1 h with hlt | ⟨rfl, hlt⟩
      · exact List.cons_lt_cons_iff.2 (.inl (ofNat_byte_lt.2 hlt))
      · exact List.cons_lt_cons_iff.2 (.inr ⟨rfl, ih hlt⟩)

theorem toText_injective : Function.Injective toText := by
  intro p q h
  rcases lt_trichotomy p q with hlt | heq | hlt
  · exact absurd h (toText_lt hlt).ne
  · exact heq
  · exact absurd h (toText_lt hlt).ne'

/-- The value that a file gives a variable. -/
def valueIn (t : VarTree) (name : Text) : Option Bytes := (textEntries t).lookup name

theorem textEntries_sorted (t : VarTree) : (textEntries t).Pairwise fun x y => x.1 < y.1 :=
  List.pairwise_map.2 (t.sorted.imp fun h => toText_lt h)

section

variable {D : Set TupId} {s s' : VarStore} {dt : TupId} {name : Text} {t : TupEntry} {v : Bytes}
  {new : Text → Option Bytes} {K : Set Text}

/-- The value that a row stands for. -/
theorem VarStore.Ok.value_of_mem (h : s.Ok D) (ht : t ∈ s.db.node) (hdt : t.dt ∈ D) :
    s.value t.dt t.name = s.var t.tupid := by
  have hsel : tupDbSelectTent s.db t.dt t.name = some t := by
    cases hsel : tupDbSelectTent s.db t.dt t.name with
    | none => simpa using List.find?_eq_none.1 hsel t ht
    | some u =>
      obtain ⟨hu, hudt, huname⟩ := mem_of_tupDbSelectTent hsel
      rw [h.sound.tree.names u hu t ht hudt huname]
  unfold VarStore.value
  rw [hsel, Option.bind_some, (h.vars t ht hdt).2]
  by_cases hnone : s.var t.tupid = none
  · rw [if_pos hnone, hnone]
    rfl
  · rw [if_neg hnone]
    rfl

theorem value_of_free (h : ∀ t ∈ s.db.node, ¬ (t.dt = dt ∧ t.name = name)) :
    s.value dt name = none := by
  have hsel : tupDbSelectTent s.db dt name = none := by
    refine List.find?_eq_none.2 fun t ht => ?_
    simpa using h t ht
  unfold VarStore.value
  rw [hsel]
  rfl

theorem VarStore.Ok.value_eq_some (h : s.Ok D) (hdt : dt ∈ D) : s.value dt name = some v ↔
    ∃ t ∈ s.db.node, t.dt = dt ∧ t.name = name ∧ s.var t.tupid = some v := by
  by_cases hrow : ∃ t ∈ s.db.node, t.dt = dt ∧ t.name = name
  · obtain ⟨t, ht, rfl, rfl⟩ := hrow
    rw [h.value_of_mem ht hdt]
    constructor
    · exact fun hv => ⟨t, ht, rfl, rfl, hv⟩
    · rintro ⟨u, hu, hudt, huname, hv⟩
      rwa [h.sound.tree.names u hu t ht hudt huname] at hv
  · rw [value_of_free fun t ht hmem => hrow ⟨t, ht, hmem⟩]
    refine iff_of_false (by simp) ?_
    rintro ⟨t, ht, hudt, huname, -⟩
    exact hrow ⟨t, ht, hudt, huname⟩

theorem mem_vardbRows {e : Text × TupEntry × Bytes} : e ∈ vardbRows s dt ↔
    e.2.1 ∈ s.db.node ∧ e.2.1.dt = dt ∧ e.1 = e.2.1.name ∧ s.var e.2.1.tupid = some e.2.2 := by
  obtain ⟨k, t, v⟩ := e
  simp only [vardbRows, List.mem_filterMap, List.mem_filter, decide_eq_true_eq,
    Option.map_eq_some_iff, Prod.mk.injEq]
  constructor
  · rintro ⟨u, ⟨hu, hudt⟩, w, hw, rfl, rfl, rfl⟩
    exact ⟨hu, hudt, rfl, hw⟩
  · rintro ⟨ht, htdt, rfl, hv⟩
    exact ⟨t, ⟨ht, htdt⟩, v, hv, rfl, rfl, rfl⟩

/-- What `tup_db_get_vardb` has under a name. -/
theorem lookup_tupDbGetVardb (h : s.db.Sound) {vea : TupEntry × Bytes} :
    (tupDbGetVardb s dt).entries.lookup name = some vea ↔
      vea.1 ∈ s.db.node ∧ vea.1.dt = dt ∧ vea.1.name = name ∧ s.var vea.1.tupid = some vea.2 := by
  have hget := SortedTable.get_foldl_set (vardbRows s dt) .empty name
  rw [SortedTable.get_empty, Option.or_none] at hget
  show (tupDbGetVardb s dt).get name = some vea ↔ _
  rw [tupDbGetVardb, hget]
  have hmem : ∀ {vea : TupEntry × Bytes}, (vardbRows s dt).reverse.lookup name = some vea →
      vea.1 ∈ s.db.node ∧ vea.1.dt = dt ∧ vea.1.name = name ∧ s.var vea.1.tupid = some vea.2 := by
    intro vea hlook
    obtain ⟨l₁, l₂, hl, -⟩ := List.lookup_eq_some_iff.1 hlook
    have hin : (name, vea) ∈ vardbRows s dt := by
      rw [← List.mem_reverse, hl]
      exact List.mem_append_right _ List.mem_cons_self
    obtain ⟨ht, hdt, hname, hv⟩ := mem_vardbRows.1 hin
    exact ⟨ht, hdt, hname.symm, hv⟩
  refine ⟨hmem, ?_⟩
  rintro ⟨ht, hdt, rfl, hv⟩
  cases hlook : (vardbRows s dt).reverse.lookup vea.1.name with
  | none =>
    have hin : (vea.1.name, vea) ∈ (vardbRows s dt).reverse :=
      List.mem_reverse.2 (mem_vardbRows.2 ⟨ht, hdt, rfl, hv⟩)
    simpa using List.lookup_eq_none_iff.1 hlook _ hin
  | some veb =>
    obtain ⟨ht', hdt', hname', hv'⟩ := hmem hlook
    have hrow := h.tree.names _ ht' _ ht (hdt'.trans hdt.symm) hname'
    rw [hrow, hv] at hv'
    rw [Prod.ext hrow (Option.some.inj hv').symm]

theorem VarStore.Ok.lookup_eq_none (h : s.Ok D) (hdt : dt ∈ D) :
    (tupDbGetVardb s dt).entries.lookup name = none ↔ s.value dt name = none := by
  rw [Option.eq_none_iff_forall_ne_some, Option.eq_none_iff_forall_ne_some]
  constructor
  · intro hnone v hv
    obtain ⟨t, ht, htdt, htname, hvar⟩ := (h.value_eq_some hdt).1 hv
    exact hnone (t, v) ((lookup_tupDbGetVardb h.sound).2 ⟨ht, htdt, htname, hvar⟩)
  · rintro hnone ⟨t, v⟩ hlook
    obtain ⟨ht, htdt, htname, hvar⟩ := (lookup_tupDbGetVardb h.sound).1 hlook
    exact hnone v ((h.value_eq_some hdt).2 ⟨t, ht, htdt, htname, hvar⟩)

/-- The names that `tup_db_read_vars` comes across. -/
def comparedNames (s : VarStore) (dt : TupId) (t : VarTree) : Set Text :=
  {name | s.value dt name ≠ none ∨ valueIn t name ≠ none}

theorem IsVar.of_value (h : IsVar s t (s.var t.tupid)) (hv : s.var t.tupid = some v) :
    t.type = .var := by
  rw [h.2, hv]
  rfl

/-- The database stays one of the nodes `D`. -/
theorem VarStore.Ok.synced (h : s.Ok D) (hdt : dt ∈ D) (hsync : Synced s dt new K s') : s'.Ok D where
  sound := hsync.sound
  owned := hsync.owned
  config j hj := by
    obtain ⟨u, hu, rfl⟩ := hasNode_iff.1 (h.config j hj)
    refine hasNode_iff.2 ⟨u, (hsync.rows u ?_).2 hu, rfl⟩
    rintro ⟨hudt, -⟩
    exact h.apart u hu hj (hudt ▸ hdt)
  apart t ht hmem := by
    obtain ⟨u, hu, hid⟩ := hasNode_iff.1 (h.config _ hmem)
    have hu' : u ∈ s'.db.node := by
      refine (hsync.rows u ?_).2 hu
      rintro ⟨hudt, -⟩
      exact h.apart u hu (hid ▸ hmem) (hudt ▸ hdt)
    rw [hsync.sound.tree.eq_of_tupid ht hu' hid.symm]
    exact h.apart u hu (hid ▸ hmem)
  vars t ht hmem := by
    by_cases hk : t.dt = dt ∧ t.name ∈ K
    · obtain ⟨hvar, htype⟩ := hsync.done t ht hk.1 hk.2
      exact ⟨rfl, by rw [htype, hvar]⟩
    · obtain ⟨-, htype⟩ := h.vars t ((hsync.rows t hk).1 ht) hmem
      exact ⟨rfl, by rw [htype, hsync.var t ht hk]⟩

theorem comparedNames_eq (h : s.Ok D) (hdt : dt ∈ D) (file : VarTree) : comparedNames s dt file =
    {k | k ∈ (join (tupDbGetVardb s dt).entries (textEntries file)).map Prod.fst} := by
  have hmem := mem_join (tupDbGetVardb s dt).sorted (textEntries_sorted file)
  ext k
  constructor
  · intro hk
    refine List.mem_map.2 ⟨(k, values _ _ k), (hmem _).2 ⟨rfl, ?_⟩, rfl⟩
    intro hnone
    obtain ⟨hleft, hright⟩ := Prod.mk.inj hnone
    exact hk.elim (fun hne => hne ((h.lookup_eq_none hdt).1 hleft)) fun hne => hne hright
  · intro hk
    obtain ⟨e, he, rfl⟩ := List.mem_map.1 hk
    obtain ⟨heq, hne⟩ := (hmem e).1 he
    by_contra hnot
    obtain ⟨hleft, hright⟩ := not_or.1 hnot
    exact hne (heq.trans (Prod.ext ((h.lookup_eq_none hdt).2 (not_not.1 hleft)) (not_not.1 hright)))

/-- Variables are made as in `new` one after another. -/
theorem foldlM_synced {ι : Type} {step : VarStore → ι → Option VarStore} {f : ι → Text} {l : List ι}
    (h : s.Ok D) (hdt : dt ∈ D) (hnodup : (l.map f).Nodup)
    (hstep : ∀ e ∈ l, ∀ {K : Set Text} {s₁ : VarStore}, Synced s dt new K s₁ → f e ∉ K →
      HasNode s₁.db dt → ∃ s₂, step s₁ e = some s₂ ∧ Synced s₁ dt new {f e} s₂) :
    ∃ s', l.foldlM step s = some s' ∧ Synced s dt new {k | k ∈ l.map f} s' := by
  have hvars : ∀ t ∈ s.db.node, t.dt = dt → IsVar s t (s.var t.tupid) := fun t ht htdt =>
    h.vars t ht (htdt ▸ hdt)
  refine foldlM_invariant (P := fun pre s' => Synced s dt new {k | k ∈ pre.map f} s') ?_ ?_
  · have hnone : Synced s dt new ∅ s := .refl h.sound h.owned
    simpa using hnone
  · rintro pre e post s₁ rfl hsync
    have hk : f e ∉ {k | k ∈ pre.map f} := by
      intro hk
      rw [List.map_append, List.nodup_append] at hnodup
      exact hnodup.2.2 _ hk _ List.mem_cons_self rfl
    have hset : {j | j ∈ (pre ++ [e]).map f} = insert (f e) {k | k ∈ pre.map f} := by
      ext j
      simp [or_comm]
    obtain ⟨s₂, hs₂, hsync₂⟩ := hstep e (List.mem_append_right _ List.mem_cons_self) hsync hk
      ((h.synced hdt hsync).config dt hdt)
    refine ⟨s₂, hs₂, ?_⟩
    rw [hset]
    exact hsync.insert h.sound hvars hk hsync₂

/-- The walk through the database and the file. -/
theorem compare_synced (h : s.Ok D) (hdt : dt ∈ D) (fuel : ℕ) (file : VarTree) : ∃ s',
    vardbCompare (fun s _ vea => removeVarTupid s vea.1.tupid)
      (fun s name veb => addVar (fuel + 1) s dt name veb) (fun s _ vea veb => compareVars s vea veb)
      (tupDbGetVardb s dt).entries (textEntries file) s = some s' ∧
      Synced s dt (valueIn file) (comparedNames s dt file) s' := by
  have hmem := mem_join (tupDbGetVardb s dt).sorted (textEntries_sorted file)
  have hsorted := join_sorted (tupDbGetVardb s dt).sorted (textEntries_sorted file)
  have hvars : ∀ t ∈ s.db.node, t.dt = dt → IsVar s t (s.var t.tupid) := fun t ht htdt =>
    h.vars t ht (htdt ▸ hdt)
  have hnodup : ((join (tupDbGetVardb s dt).entries (textEntries file)).map Prod.fst).Nodup :=
    (List.pairwise_map.2 hsorted).imp LT.lt.ne
  rw [vardbCompare_eq, comparedNames_eq h hdt]
  refine foldlM_synced h hdt hnodup ?_
  rintro ⟨k, x, y⟩ hin K s₁ hsync hk hdt₁
  obtain ⟨heq, hne⟩ := (hmem _).1 hin
  have hx : (tupDbGetVardb s dt).entries.lookup k = x := (congrArg Prod.fst heq).symm
  have hy : (textEntries file).lookup k = y := (congrArg Prod.snd heq).symm
  cases x with
  | some vea =>
    obtain ⟨t, w⟩ := vea
    obtain ⟨ht, rfl, rfl, hvar⟩ := (lookup_tupDbGetVardb h.sound).1 hx
    have ht₁ := (hsync.mem_of_name hk rfl).2 ht
    have htype := (hvars t ht rfl).of_value hvar
    have hvar₁ := (hsync.var_of_name hk rfl ht₁).trans hvar
    cases y with
    | some v => exact compareVars_synced hsync.sound hsync.owned ht₁ htype hvar₁ hy
    | none => exact removeVarTupid_synced hsync.sound hsync.owned ht₁ hdt₁ (.inl htype) hy
  | none =>
    cases y with
    | some v =>
      refine addVar_synced hsync.sound hsync.owned hdt₁ ?_ hy fuel
      rintro u hu rfl rfl
      have hu₀ := (hsync.mem_of_name hk rfl).1 hu
      have hnone : s.var u.tupid = none := by
        rw [← h.value_of_mem hu₀ hdt]
        exact (h.lookup_eq_none hdt).1 hx
      refine ⟨?_, (hsync.var_of_name hk rfl hu).trans hnone⟩
      rw [(hvars u hu₀ rfl).2, if_pos hnone]
    | none => exact absurd rfl hne

/-- The variables that were made as in the file. -/
theorem Synced.value_eq (hsync : Synced s dt new K s') (h : s.Ok D) (hdt : dt ∈ D) (hk : name ∈ K) :
    s'.value dt name = new name := by
  have h' := h.synced hdt hsync
  by_cases hrow : ∃ t ∈ s'.db.node, t.dt = dt ∧ t.name = name
  · obtain ⟨t, ht, rfl, rfl⟩ := hrow
    rw [h'.value_of_mem ht hdt]
    exact (hsync.done t ht rfl hk).1
  · rw [value_of_free fun t ht hmem => hrow ⟨t, ht, hmem⟩]
    by_contra hne
    exact hrow (hsync.there name hk (Ne.symm hne))

/-- The other variables. -/
theorem Synced.value_other (hsync : Synced s dt new K s') (h : s.Ok D) (hdt : dt ∈ D) {d : TupId}
    (hd : d ∈ D) (hk : ¬ (d = dt ∧ name ∈ K)) : s'.value d name = s.value d name := by
  have h' := h.synced hdt hsync
  by_cases hrow : ∃ t ∈ s.db.node, t.dt = d ∧ t.name = name
  · obtain ⟨t, ht, rfl, rfl⟩ := hrow
    have ht' := (hsync.rows t hk).2 ht
    rw [h.value_of_mem ht hd, h'.value_of_mem ht' hd, hsync.var t ht' hk]
  · rw [value_of_free fun t ht hmem => hrow ⟨t, ht, hmem⟩, value_of_free]
    rintro t ht ⟨rfl, rfl⟩
    exact hrow ⟨t, (hsync.rows t hk).1 ht, rfl, rfl⟩

/-- A variable that the database has and the file does not. -/
def VarGone (s : VarStore) (dt : TupId) (file : VarTree) (i : TupId) : Prop :=
  ∃ t ∈ s.db.node, t.dt = dt ∧ t.type = .var ∧ valueIn file t.name = none ∧ t.tupid = i

/-- A variable, or a ghost that was asked for as one, to which the file gives a value that it does not
have. -/
def VarDiffers (s : VarStore) (dt : TupId) (file : VarTree) (i : TupId) : Prop :=
  ∃ t ∈ s.db.node, t.dt = dt ∧ valueIn file t.name ≠ none ∧
    s.value dt t.name ≠ valueIn file t.name ∧ t.tupid = i

theorem removed_iff_gone (h : s.Ok D) (hdt : dt ∈ D) (file : VarTree) (i : TupId) :
    VarRemoved s dt (valueIn file) (comparedNames s dt file) i ↔ VarGone s dt file i := by
  constructor
  · rintro ⟨t, ht, rfl, hk, hnone, hi⟩
    have hvalue := hk.resolve_right fun hne => hne hnone
    rw [h.value_of_mem ht hdt] at hvalue
    exact ⟨t, ht, rfl, (h.vars t ht hdt).2.trans (if_neg hvalue), hnone, hi⟩
  · rintro ⟨t, ht, rfl, htype, hnone, hi⟩
    refine ⟨t, ht, rfl, .inl ?_, hnone, hi⟩
    rw [h.value_of_mem ht hdt]
    intro hvar
    rw [(h.vars t ht hdt).2, if_pos hvar] at htype
    cases htype

theorem touched_iff_differs (h : s.Ok D) (hdt : dt ∈ D) (file : VarTree) (i : TupId) :
    VarTouched s dt (valueIn file) (comparedNames s dt file) i ↔ VarDiffers s dt file i := by
  constructor
  · rintro ⟨t, ht, rfl, hk, ⟨hnew, hne⟩, hi⟩
    rw [← h.value_of_mem ht hdt] at hne
    exact ⟨t, ht, rfl, hnew, hne, hi⟩
  · rintro ⟨t, ht, rfl, hnew, hne, hi⟩
    rw [h.value_of_mem ht hdt] at hne
    exact ⟨t, ht, rfl, .inr hnew, ⟨hnew, hne⟩, hi⟩

/-- What `tup_db_read_vars` does, whatever the file says. -/
theorem readVars_synced (h : s.Ok D) (hdt : dt ∈ D) (fuel : ℕ) {file : Option Bytes} {t : VarTree}
    (ht : fileTree file = some t) : ∃ m, tupDbReadVars (fuel + 1) s dt file = some (saveVardict m dt t) ∧
      Synced s dt (valueIn t) (comparedNames s dt t) m := by
  obtain ⟨m, hm, hsync⟩ := compare_synced h hdt fuel t
  refine ⟨m, ?_, hsync⟩
  unfold tupDbReadVars
  rw [ht, Option.bind_eq_bind, Option.bind_some, hm]
  rfl

/-- Reading a file flags the variables that get another value, and what reads the ones that are gone;
it takes the flags only from those. Nothing else is flagged, and no other links are dropped. -/
theorem read_vars_flags (h : s.Ok D) (hdt : dt ∈ D) (fuel : ℕ) {file : Option Bytes} {t : VarTree}
    (ht : fileTree file = some t) : ∃ s', tupDbReadVars (fuel + 1) s dt file = some s' ∧
      (∀ i, i ∈ s'.db.flags.create ↔ (i ∈ s.db.flags.create ∧ ¬ VarGone s dt t i) ∨ VarDiffers s dt t i ∨
        ((∃ u ∈ s.db.node, u.tupid = i ∧ u.type = .dir) ∧ ∃ r, VarGone s dt t r ∧ NormalAdj s.db r i)) ∧
      (∀ i, i ∈ s'.db.flags.modify ↔ (i ∈ s.db.flags.modify ∧ ¬ VarGone s dt t i) ∨ VarDiffers s dt t i ∨
        ((∃ u ∈ s.db.node, u.tupid = i ∧ (u.type = .cmd ∨ u.type = .group)) ∧
          ∃ r, VarGone s dt t r ∧ NormalAdj s.db r i)) ∧
      ∀ a b, NormalAdj s'.db a b ↔ NormalAdj s.db a b ∧ ¬ VarGone s dt t a ∧ ¬ VarGone s dt t b := by
  obtain ⟨m, hm, hsync⟩ := readVars_synced h hdt fuel ht
  refine ⟨_, hm, fun i => ?_, fun i => ?_, fun a b => ?_⟩
  · refine (hsync.create i).trans ?_
    simp only [ReadsRemoved, removed_iff_gone h hdt, touched_iff_differs h hdt, decide_eq_true_eq]
  · refine (hsync.modify i).trans ?_
    simp only [ReadsRemoved, removed_iff_gone h hdt, touched_iff_differs h hdt, Bool.or_eq_true,
      decide_eq_true_eq]
  · refine (hsync.adj a b).trans ?_
    rw [removed_iff_gone h hdt, removed_iff_gone h hdt]

/-- A variable `A` that a directory has read. -/
def readDb : Db where
  node := [{ tupid := 1, dt := 0, type := .dir, name := ['.'] },
    { tupid := 2, dt := 1, type := .file, name := tupConfig },
    { tupid := 3, dt := 1, type := .dir, name := ['d'] },
    { tupid := 4, dt := 2, type := .var, name := ['A'] }]
  normalLink := [⟨4, 3⟩]

def readStore : VarStore where
  db := readDb
  var := fun i => if i = 4 then some (bytes "n") else none

theorem readDb_sound : readDb.Sound where
  referential :=
    { dir := by decide
      links := by
        intro style l hl
        cases style with
        | normal =>
          rw [List.mem_singleton.1 hl]
          decide
        | sticky => cases hl
      srcid := by decide }
  tree :=
    { nodup := by decide
      names := by decide
      depth := ⟨Int.toNat, by decide⟩ }
  pos := by decide

theorem readStore_ok : readStore.Ok {2} where
  sound := readDb_sound
  owned i v hv := by
    by_cases hi : i = 4
    · rw [hi]
      decide
    · have hnone : readStore.var i = none := if_neg hi
      rw [hnone] at hv
      cases hv
  config dt hdt := by
    rw [Set.mem_singleton_iff.1 hdt]
    decide
  apart := by
    simp only [Set.mem_singleton_iff]
    decide
  vars := by
    have hrow : ∀ t ∈ readDb.node, t.dt = 2 → t.tupid = 4 ∧ t.type = .var := by decide
    rintro t ht hdt
    obtain ⟨hid, htype⟩ := hrow t ht hdt
    refine ⟨rfl, ?_⟩
    rw [hid]
    exact htype

/-- The file has `B` in place of `A`, and the directory is to be parsed again. -/
theorem read_vars_flags_reader :
    ∃ s', tupDbReadVars 1 readStore 2 (some (bytes "CONFIG_B=y\n")) = some s' ∧
      3 ∈ s'.db.flags.create ∧ 3 ∉ s'.db.flags.modify := by
  have hentries : (getFileVarTree (bytes "CONFIG_B=y\n")).map (·.entries) =
      some [(bytes "B", bytes "y")] := by decide +kernel
  obtain ⟨t, ht, hentries⟩ := Option.map_eq_some_iff.1 hentries
  have hfile : fileTree (some (bytes "CONFIG_B=y\n")) = some t := ht
  obtain ⟨s', hs', hcreate, hmodify, -⟩ := read_vars_flags readStore_ok rfl 0 hfile
  have hvalue : valueIn t ['A'] = none := by
    unfold valueIn textEntries
    rw [hentries]
    decide
  have hgone : ∀ i, VarGone readStore 2 t i → i = 4 := by
    have hvar : ∀ u ∈ readDb.node, u.dt = 2 → u.tupid = 4 := by decide
    rintro i ⟨u, hu, hudt, -, -, rfl⟩
    exact hvar u hu hudt
  have hdiffers : ¬ VarDiffers readStore 2 t 3 := by
    have hvar : ∀ u ∈ readDb.node, u.dt = 2 → u.tupid ≠ 3 := by decide
    rintro ⟨u, hu, hudt, -, -, hi⟩
    exact hvar u hu hudt hi
  refine ⟨s', hs', (hcreate 3).2 (.inr (.inr ⟨by decide, 4, ?_, by decide⟩)), ?_⟩
  · exact ⟨{ tupid := 4, dt := 2, type := .var, name := ['A'] }, by decide, rfl, rfl, hvalue, rfl⟩
  · rw [hmodify]
    rintro (⟨hmem, -⟩ | hmem | ⟨hmem, -⟩)
    · exact absurd hmem (by decide)
    · exact hdiffers hmem
    · exact absurd hmem (by decide)

/-- The variables of a `tup.config` that is gone are removed. -/
theorem deleteConfig_synced (h : s.Ok D) (hdt : dt ∈ D) : ∃ s', tupDbDeleteTupConfig s dt = some s' ∧
    Synced s dt (fun _ => none) {name | ∃ t ∈ s.db.node, t.dt = dt ∧ t.name = name} s' := by
  have hentries : (getDirEntries s.db dt).Nodup :=
    List.nodup_reverse.2 ((List.Nodup.of_map _ h.sound.tree.nodup).filter _)
  have hnodup : ((getDirEntries s.db dt).map TupEntry.name).Nodup := by
    refine hentries.map_on fun t ht u hu hname => ?_
    obtain ⟨ht, htdt⟩ := mem_getDirEntries.1 ht
    obtain ⟨hu, hudt⟩ := mem_getDirEntries.1 hu
    exact h.sound.tree.names t ht u hu (htdt.trans hudt.symm) hname
  have hset : {name | ∃ t ∈ s.db.node, t.dt = dt ∧ t.name = name} =
      {k | k ∈ (getDirEntries s.db dt).map TupEntry.name} := by
    ext k
    simp [mem_getDirEntries, and_assoc]
  rw [hset]
  refine foldlM_synced h hdt hnodup ?_
  intro t hin K s₁ hsync hk hdt₁
  obtain ⟨ht, rfl⟩ := mem_getDirEntries.1 hin
  have hkind : t.type = .var ∨ t.type = .ghost := by
    rw [(h.vars t ht hdt).2]
    split
    · exact .inr rfl
    · exact .inl rfl
  exact removeVarTupid_synced hsync.sound hsync.owned ((hsync.mem_of_name hk rfl).2 ht) hdt₁ hkind rfl

end

end Metatup
