import Metatup.Vars.Vardict

/-!
# The text of a dist manifest

A dist value is passed on as a text: a prefix and, for each entry, the source and the destination in
hex digits, with `>` between the two and `;` behind them.

* `distParseManifest_serialize`: what has been written is read back.
* `distManifest_iff`: a text that is read is what would be written, up to the case of its digits, just
  when no pair of its digits stands for a null byte.
-/

namespace Metatup

/-- Source: `parser.c` `struct dist_entry` -/
structure DistEntry where
  src : Bytes
  dest : Bytes
  deriving DecidableEq

/-- Source: `parser.c` `struct dist_manifest` -/
abbrev DistManifest := List DistEntry

/-- Source: `parser.c` `dist_manifest_add`; `none` is a destination that is there already. -/
def distManifestAdd (dm : DistManifest) (src dest : Bytes) : Option DistManifest :=
  if dm.any (·.dest = dest) then none else some (dm ++ [⟨src, dest⟩])

/-! ### Hex digits -/

/-- Source: `parser.c` `dist_hex_value` -/
def distHexValue (c : Byte) : Option ℕ :=
  if byte '0' ≤ c ∧ c ≤ byte '9' then some (c.val - (byte '0').val)
  else if byte 'a' ≤ c ∧ c ≤ byte 'f' then some (c.val - (byte 'a').val + 10)
  else if byte 'A' ≤ c ∧ c ≤ byte 'F' then some (c.val - (byte 'A').val + 10)
  else none

/-- The `hex` of `dist_encode_hex`. -/
def distHexDigit (n : ℕ) : Byte := (bytes "0123456789abcdef").getD n 0

/-- Source: `parser.c` `dist_encode_hex` -/
def distEncodeHex (s : Bytes) : Bytes :=
  s.flatMap fun c => [distHexDigit (c.val / 16), distHexDigit (c.val % 16)]

/-- The buffer that `dist_decode_hex` fills. -/
def distDecodeHex : Bytes → Option Bytes
  | [] => some []
  | [_] => none
  | a :: b :: s =>
    match distHexValue a, distHexValue b with
    | some hi, some lo => (distDecodeHex s).map (Fin.ofNat 256 (16 * hi + lo) :: ·)
    | _, _ => none

/-! ### Writing and reading -/

/-- `DIST_SPEC_PREFIX` -/
def distSpecPrefix : Bytes := bytes "__metatup_dist_v1__:"

/-- The loop of `dist_serialize_manifest`. -/
def distSerializeEntries (dm : DistManifest) : Bytes :=
  dm.flatMap fun e => distEncodeHex e.src ++ byte '>' :: (distEncodeHex e.dest ++ [byte ';'])

/-- Source: `parser.c` `dist_serialize_manifest` -/
def distSerializeManifest (dm : DistManifest) : Bytes := distSpecPrefix ++ distSerializeEntries dm

/-- The loop of `dist_parse_manifest`. The two searches go over all that is left; what has been decoded
is a C string. -/
def distParseLoop : Bytes → DistManifest → Option DistManifest
  | [], dm => some dm
  | c :: s, dm =>
    match strchr (byte '>') (c :: s) with
    | none => none
    | some (src, sep) =>
      match hend : strchr (byte ';') (c :: s) with
      | none => none
      | some (entry, next) =>
        if entry.length < src.length then none
        else do
          let src' ← distDecodeHex src
          let dest ← distDecodeHex (sep.take (entry.length - src.length - 1))
          let dm ← distManifestAdd dm (cString src') (cString dest)
          distParseLoop next dm
termination_by s => s.length
decreasing_by
  have := congrArg List.length (strchr_spec hend).1
  simp only [List.length_append, List.length_cons] at this ⊢
  omega

/-- Source: `parser.c` `dist_parse_manifest` -/
def distParseManifest (spec : Bytes) : Option DistManifest :=
  if distSpecPrefix.isPrefixOf spec then distParseLoop (spec.drop distSpecPrefix.length) [] else none

/-! ### Digits and bytes -/

/-- A hex digit in lower case. -/
def lowerDigit (c : Byte) : Byte := if byte 'A' ≤ c ∧ c ≤ byte 'F' then c + 32 else c

theorem distHexValue_digit {n : ℕ} (h : n < 16) : distHexValue (distHexDigit n) = some n := by
  have key : ∀ n : Fin 16, distHexValue (distHexDigit n) = some (n : ℕ) := by decide
  exact key ⟨n, h⟩

theorem distHexDigit_value {c : Byte} {n : ℕ} (h : distHexValue c = some n) :
    n < 16 ∧ distHexDigit n = lowerDigit c := by
  have key : ∀ c : Byte, ∀ n ∈ distHexValue c, n < 16 ∧ distHexDigit n = lowerDigit c := by
    decide +kernel
  exact key c n h

/-- A digit is neither a separator nor a null byte. -/
theorem distHexDigit_ne {n : ℕ} (h : n < 16) {c : Byte} (hc : c = byte '>' ∨ c = byte ';' ∨ c = 0) :
    distHexDigit n ≠ c := by
  have key : ∀ n : Fin 16, distHexDigit n ≠ byte '>' ∧ distHexDigit n ≠ byte ';' ∧
      distHexDigit n ≠ 0 := by decide
  rcases hc with rfl | rfl | rfl
  · exact (key ⟨n, h⟩).1
  · exact (key ⟨n, h⟩).2.1
  · exact (key ⟨n, h⟩).2.2

theorem not_mem_distEncodeHex (s : Bytes) {c : Byte} (hc : c = byte '>' ∨ c = byte ';' ∨ c = 0) :
    c ∉ distEncodeHex s := by
  intro h
  obtain ⟨b, -, hb⟩ := List.mem_flatMap.1 h
  have hlt := b.isLt
  rcases List.mem_cons.1 hb with heq | hb
  · exact distHexDigit_ne (by omega) hc heq.symm
  · exact distHexDigit_ne (by omega) hc (List.mem_singleton.1 hb).symm

/-- What has been encoded is decoded. -/
theorem distDecodeHex_encode (s : Bytes) : distDecodeHex (distEncodeHex s) = some s := by
  induction s with
  | nil => rfl
  | cons c s ih =>
    have hc := c.isLt
    have hcons : distEncodeHex (c :: s) =
        distHexDigit (c.val / 16) :: distHexDigit (c.val % 16) :: distEncodeHex s := rfl
    have hbyte : Fin.ofNat 256 (16 * (c.val / 16) + c.val % 16) = c := by
      ext
      simp only [Fin.val_ofNat]
      omega
    rw [hcons, distDecodeHex, distHexValue_digit (by omega), distHexValue_digit (by omega), ih]
    dsimp only
    rw [Option.map_some, hbyte]

/-- Two digits and the byte they stand for. -/
theorem distDecodeHex_cons {a b : Byte} {s t : Bytes} :
    distDecodeHex (a :: b :: s) = some t ↔
      ∃ hi lo t', distHexValue a = some hi ∧ distHexValue b = some lo ∧ distDecodeHex s = some t' ∧
        t = Fin.ofNat 256 (16 * hi + lo) :: t' := by
  rw [distDecodeHex]
  constructor
  · intro h
    split at h
    · next hi lo ha hb =>
      obtain ⟨t', ht', rfl⟩ := Option.map_eq_some_iff.1 h
      exact ⟨hi, lo, t', ha, hb, ht', rfl⟩
    · cases h
  · rintro ⟨hi, lo, t', ha, hb, ht', rfl⟩
    rw [ha, hb]
    dsimp only
    rw [ht', Option.map_some]

/-- Induction over a field two digits at a time. -/
theorem distDecodeHex_induction {P : Bytes → Bytes → Prop} (nil : P [] [])
    (cons : ∀ a b s t hi lo, distHexValue a = some hi → distHexValue b = some lo → P s t →
      P (a :: b :: s) (Fin.ofNat 256 (16 * hi + lo) :: t))
    {s t : Bytes} (h : distDecodeHex s = some t) : P s t := by
  induction s using distDecodeHex.induct generalizing t with
  | case1 =>
    cases h
    exact nil
  | case2 => cases h
  | case3 a b s _ _ _ _ ih =>
    obtain ⟨hi, lo, t', ha, hb, ht', rfl⟩ := distDecodeHex_cons.1 h
    exact cons a b s t' hi lo ha hb (ih ht')
  | case4 a b s hnot =>
    obtain ⟨hi, lo, t', ha, hb, -⟩ := distDecodeHex_cons.1 h
    exact absurd hb (hnot hi lo ha)

/-- What is decoded encodes to its digits in lower case. -/
theorem distEncodeHex_of_decode {s t : Bytes} (h : distDecodeHex s = some t) :
    distEncodeHex t = s.map lowerDigit := by
  apply distDecodeHex_induction (P := fun s t => distEncodeHex t = s.map lowerDigit) rfl ?_ h
  intro a b s t hi lo ha hb ih
  obtain ⟨hlt, hdigit⟩ := distHexDigit_value ha
  obtain ⟨hlt', hdigit'⟩ := distHexDigit_value hb
  have hval : (Fin.ofNat 256 (16 * hi + lo)).val = 16 * hi + lo := by
    simp only [Fin.val_ofNat]
    omega
  show distHexDigit _ :: distHexDigit _ :: distEncodeHex t = _
  rw [hval, Nat.mul_add_div (by decide), Nat.div_eq_of_lt hlt', Nat.mul_add_mod,
    Nat.mod_eq_of_lt hlt', Nat.add_zero, hdigit, hdigit', ih]
  rfl

/-- Two digits of a field that stand for a null byte. -/
def hasNullPair : Bytes → Bool
  | a :: b :: s =>
    if a = byte '>' ∨ a = byte ';' then hasNullPair (b :: s)
    else (a = byte '0' && b = byte '0') || hasNullPair s
  | _ => false

theorem distHexValue_spec {c : Byte} {n : ℕ} (h : distHexValue c = some n) :
    ¬ (c = byte '>' ∨ c = byte ';') ∧ c ≠ 0 ∧ (c = byte '0' ↔ n = 0) := by
  have key : ∀ c : Byte, ∀ n ∈ distHexValue c,
      ¬ (c = byte '>' ∨ c = byte ';') ∧ c ≠ 0 ∧ (c = byte '0' ↔ n = 0) := by
    decide +kernel
  exact key c n h

theorem hasNullPair_field {s t q : Bytes} {sep : Byte} (hsep : sep = byte '>' ∨ sep = byte ';')
    (h : distDecodeHex s = some t) :
    hasNullPair (s ++ sep :: q) = (t.contains 0 || hasNullPair q) := by
  apply distDecodeHex_induction
    (P := fun s t => hasNullPair (s ++ sep :: q) = (t.contains 0 || hasNullPair q)) ?_ ?_ h
  · cases q with
    | nil => rfl
    | cons b q => simp [hasNullPair, hsep]
  · intro a b s t hi lo ha hb ih
    have hnull : (a = byte '0' && b = byte '0' : Bool) = (0 == Fin.ofNat 256 (16 * hi + lo)) := by
      have hlt := (distHexDigit_value ha).1
      have hlt' := (distHexDigit_value hb).1
      rw [Bool.eq_iff_iff]
      simp only [Bool.and_eq_true, decide_eq_true_eq, (distHexValue_spec ha).2.2,
        (distHexValue_spec hb).2.2, beq_iff_eq, Fin.ext_iff, Fin.val_ofNat]
      show _ ↔ 0 = _
      omega
    rw [List.cons_append, List.cons_append, hasNullPair, if_neg (distHexValue_spec ha).1, ih, hnull,
      List.contains_cons, Bool.or_assoc]

/-! ### Entries -/

/-- One entry of a manifest as it is read. -/
theorem distParseLoop_entry {src dest next : Bytes} {dm : DistManifest}
    (hsrc : ∀ c, c = byte '>' ∨ c = byte ';' ∨ c = 0 → c ∉ src)
    (hdest : ∀ c, c = byte ';' ∨ c = 0 → c ∉ dest) :
    distParseLoop (src ++ byte '>' :: (dest ++ byte ';' :: next)) dm =
      (distDecodeHex src).bind fun s => (distDecodeHex dest).bind fun d =>
        (distManifestAdd dm (cString s) (cString d)).bind (distParseLoop next) := by
  obtain ⟨c, p, hcp⟩ := List.exists_cons_of_ne_nil
    (show src ++ byte '>' :: (dest ++ byte ';' :: next) ≠ [] by simp)
  have hsep : strchr (byte '>') (c :: p) = some (src, dest ++ byte ';' :: next) :=
    hcp ▸ strchr_append (hsrc _ (.inl rfl)) (hsrc _ (.inr (.inr rfl)))
  have hend : strchr (byte ';') (c :: p) = some (src ++ byte '>' :: dest, next) := by
    rw [← hcp, ← List.cons_append, ← List.append_assoc]
    have hnot : ∀ c, c = byte ';' ∨ c = 0 → c ∉ src ++ byte '>' :: dest := by
      intro c hc hmem
      rcases List.mem_append.1 hmem with hmem | hmem
      · exact hsrc c (.inr hc) hmem
      · rcases List.mem_cons.1 hmem with rfl | hmem
        · revert hc
          decide
        · exact hdest c hc hmem
    exact strchr_append (hnot _ (.inl rfl)) (hnot _ (.inr rfl))
  have htake : (dest ++ byte ';' :: next).take
      ((src ++ byte '>' :: dest).length - src.length - 1) = dest := by
    have hlen : (src ++ byte '>' :: dest).length - src.length - 1 = dest.length := by
      rw [List.length_append, List.length_cons]
      omega
    rw [hlen, List.take_left]
  rw [hcp, distParseLoop, hsep]
  dsimp only
  split
  · next hnone => cases hend.symm.trans hnone
  · next entry next' hsome =>
    cases hend.symm.trans hsome
    rw [if_neg (by simp), htake]
    rfl

/-- What is left of a text that is accepted begins with an entry. -/
theorem exists_entry {p : Bytes} {dm dm' : DistManifest} (hne : p ≠ [])
    (h : distParseLoop p dm = some dm') :
    ∃ src dest next s d, p = src ++ byte '>' :: (dest ++ byte ';' :: next) ∧
      distDecodeHex src = some s ∧ distDecodeHex dest = some d ∧
      (∀ e ∈ dm, e.dest ≠ cString d) ∧
      distParseLoop next (dm ++ [⟨cString s, cString d⟩]) = some dm' := by
  obtain ⟨c, p, rfl⟩ := List.exists_cons_of_ne_nil hne
  rw [distParseLoop] at h
  split at h
  · cases h
  · next src sep hsep =>
    split at h
    · cases h
    · next entry next hend =>
      split at h
      · cases h
      · next hlen =>
        obtain ⟨hp, -, -⟩ := strchr_spec hsep
        obtain ⟨hp', hentry, -⟩ := strchr_spec hend
        obtain ⟨x, rfl, hx⟩ : ∃ x, entry = src ++ x ∧ byte '>' :: sep = x ++ byte ';' :: next := by
          rcases List.append_eq_append_iff.1 (hp.symm.trans hp') with ⟨x, hx, hx'⟩ | ⟨x, hx, hx'⟩
          · exact ⟨x, hx, hx'⟩
          · have hnil : x = [] := by
              have := congrArg List.length hx
              rw [List.length_append] at this
              exact List.eq_nil_of_length_eq_zero (by omega)
            rw [hnil, List.append_nil] at hx
            rw [hnil] at hx'
            exact ⟨[], by simp [hx], hx'.symm⟩
        obtain ⟨dest, rfl⟩ : ∃ dest, x = byte '>' :: dest := by
          cases x with
          | nil => exact absurd (List.cons.inj hx).1 (by decide)
          | cons a x => exact ⟨x, by rw [(List.cons.inj hx).1]⟩
        have hsep' : sep = dest ++ byte ';' :: next := (List.cons.inj hx).2
        have htake : sep.take ((src ++ byte '>' :: dest).length - src.length - 1) = dest := by
          have hlen : (src ++ byte '>' :: dest).length - src.length - 1 = dest.length := by
            rw [List.length_append, List.length_cons]
            omega
          rw [hlen, hsep', List.take_left]
        rw [htake] at h
        obtain ⟨s, hs, h⟩ := Option.bind_eq_some_iff.1 h
        obtain ⟨d, hd, h⟩ := Option.bind_eq_some_iff.1 h
        obtain ⟨dm₁, hadd, h⟩ := Option.bind_eq_some_iff.1 h
        unfold distManifestAdd at hadd
        split at hadd
        · cases hadd
        · next hany =>
          cases hadd
          refine ⟨src, dest, next, s, d, hsep' ▸ hp, hs, hd, fun e he heq => hany ?_, h⟩
          rw [List.any_eq_true]
          exact ⟨e, he, by simpa using heq⟩

/-! ### Round trips -/

/-- Pairwise different destinations, and strings without a null byte. -/
structure ManifestOk (dm : DistManifest) : Prop where
  distinct : (dm.map DistEntry.dest).Nodup
  strings : ∀ e ∈ dm, (0 : Byte) ∉ e.src ∧ (0 : Byte) ∉ e.dest

theorem cString_of_not_mem {s : Bytes} (h : (0 : Byte) ∉ s) : cString s = s := by
  rw [cString, List.takeWhile_eq_self_iff]
  exact fun b hb => by simpa using fun h0 : b = 0 => h (h0 ▸ hb)

/-- The loop reads the entries that the other loop has written. -/
theorem distParseLoop_serialize {dm dm₀ : DistManifest} (h : ManifestOk (dm₀ ++ dm)) :
    distParseLoop (distSerializeEntries dm) dm₀ = some (dm₀ ++ dm) := by
  induction dm generalizing dm₀ with
  | nil =>
    rw [List.append_nil]
    exact distParseLoop.eq_1 dm₀
  | cons e dm ih =>
    have hcons : distSerializeEntries (e :: dm) = distEncodeHex e.src ++
        byte '>' :: (distEncodeHex e.dest ++ byte ';' :: distSerializeEntries dm) := by
      simp [distSerializeEntries]
    obtain ⟨hsrc, hdest⟩ := h.strings e (List.mem_append_right _ List.mem_cons_self)
    have hnew : ¬ (dm₀.any (·.dest = e.dest) = true) := by
      intro hany
      obtain ⟨f, hf, heq⟩ := List.any_eq_true.1 hany
      have hnodup := h.distinct
      rw [List.map_append] at hnodup
      exact (List.nodup_append.1 hnodup).2.2 _ (List.mem_map_of_mem hf) _
        (List.mem_map_of_mem List.mem_cons_self) (by simpa using heq)
    rw [hcons, distParseLoop_entry (fun c hc => not_mem_distEncodeHex _ hc)
      (fun c hc => not_mem_distEncodeHex _ (.inr hc)), distDecodeHex_encode, distDecodeHex_encode,
      Option.bind_some, Option.bind_some, cString_of_not_mem hsrc, cString_of_not_mem hdest,
      distManifestAdd, if_neg hnew, Option.bind_some, ih (by simpa using h)]
    simp

/-- What has been written is read back. -/
theorem distParseManifest_serialize {dm : DistManifest} (h : ManifestOk dm) :
    distParseManifest (distSerializeManifest dm) = some dm := by
  have hloop : distParseLoop (distSerializeEntries dm) [] = some ([] ++ dm) :=
    distParseLoop_serialize h
  rw [distParseManifest, distSerializeManifest,
    if_pos (List.isPrefixOf_iff_prefix.2 (List.prefix_append _ _)), List.drop_left, hloop,
    List.nil_append]

theorem cString_eq_iff {s : Bytes} : s = cString s ↔ s.contains 0 = false := by
  rw [eq_comm, cString, List.takeWhile_eq_self_iff, ← Bool.not_eq_true, List.contains_iff_mem]
  constructor
  · exact fun h hmem => by simpa using h 0 hmem
  · exact fun h b hb => by simpa using fun h0 : b = 0 => h (h0 ▸ hb)

/-- Two texts that begin with an entry are the same just when the entries and what follows are. -/
theorem entry_inj {a b p a' b' p' : Bytes} :
    distEncodeHex a ++ byte '>' :: (distEncodeHex b ++ byte ';' :: p) =
        distEncodeHex a' ++ byte '>' :: (distEncodeHex b' ++ byte ';' :: p') ↔
      a = a' ∧ b = b' ∧ p = p' := by
  have hsplit : ∀ (s : Bytes) (c : Byte) (q : Bytes), c = byte '>' ∨ c = byte ';' →
      strchr c (distEncodeHex s ++ c :: q) = some (distEncodeHex s, q) := fun s c q hc =>
    strchr_append (not_mem_distEncodeHex s (hc.imp_right .inl))
      (not_mem_distEncodeHex s (.inr (.inr rfl)))
  have hinj : ∀ s t : Bytes, distEncodeHex s = distEncodeHex t → s = t := fun s t h =>
    Option.some.inj ((distDecodeHex_encode s).symm.trans (h ▸ distDecodeHex_encode t))
  constructor
  · intro h
    have h₁ := congrArg (strchr (byte '>')) h
    rw [hsplit _ _ _ (.inl rfl), hsplit _ _ _ (.inl rfl)] at h₁
    obtain ⟨ha, hrest⟩ := Prod.mk.inj (Option.some.inj h₁)
    have h₂ := congrArg (strchr (byte ';')) hrest
    rw [hsplit _ _ _ (.inr rfl), hsplit _ _ _ (.inr rfl)] at h₂
    obtain ⟨hb, hp⟩ := Prod.mk.inj (Option.some.inj h₂)
    exact ⟨hinj _ _ ha, hinj _ _ hb, hp⟩
  · rintro ⟨rfl, rfl, rfl⟩
    rfl

/-- What the loop accepts is what would be written, up to the case of the digits, just when it has no
pair of digits for a null byte. -/
theorem distParseLoop_iff {p : Bytes} {dm dm' : DistManifest} (h : distParseLoop p dm = some dm') :
    ∃ es, dm' = dm ++ es ∧
      (p.map lowerDigit = distSerializeEntries es ↔ hasNullPair p = false) := by
  induction hn : p.length using Nat.strong_induction_on generalizing p dm with
  | _ n ih =>
    by_cases hp : p = []
    · subst hp
      rw [distParseLoop] at h
      cases h
      exact ⟨[], (List.append_nil _).symm, iff_of_true rfl rfl⟩
    · obtain ⟨src, dest, next, s, d, rfl, hs, hd, -, hnext⟩ := exists_entry hp h
      have hlt : next.length < n := by
        rw [← hn]
        simp only [List.length_append, List.length_cons]
        omega
      obtain ⟨es, rfl, hiff⟩ := ih _ hlt hnext rfl
      refine ⟨⟨cString s, cString d⟩ :: es, by simp, ?_⟩
      have hmap : (src ++ byte '>' :: (dest ++ byte ';' :: next)).map lowerDigit =
          distEncodeHex s ++ byte '>' :: (distEncodeHex d ++ byte ';' :: next.map lowerDigit) := by
        rw [distEncodeHex_of_decode hs, distEncodeHex_of_decode hd, List.map_append, List.map_cons,
          List.map_append, List.map_cons]
        rfl
      have hcons : distSerializeEntries (⟨cString s, cString d⟩ :: es) = distEncodeHex (cString s) ++
          byte '>' :: (distEncodeHex (cString d) ++ byte ';' :: distSerializeEntries es) := by
        simp [distSerializeEntries]
      rw [hmap, hcons, entry_inj, hiff, cString_eq_iff, cString_eq_iff,
        hasNullPair_field (.inl rfl) hs, hasNullPair_field (.inr rfl) hd, Bool.or_eq_false_iff,
        Bool.or_eq_false_iff]

/-- A manifest that has been written is read back; and a text that is read is what would be written, up
to the case of the digits, just when no pair of its digits stands for a null byte. -/
theorem distManifest_iff (spec : Bytes) (dm : DistManifest) :
    (ManifestOk dm → distParseManifest (distSerializeManifest dm) = some dm) ∧
    (distParseManifest spec = some dm →
      (spec.map lowerDigit = distSerializeManifest dm ↔
        hasNullPair (spec.drop distSpecPrefix.length) = false)) := by
  refine ⟨fun h => distParseManifest_serialize h, fun h => ?_⟩
  unfold distParseManifest at h
  split at h
  · next hpre =>
    obtain ⟨p, rfl⟩ := List.isPrefixOf_iff_prefix.1 hpre
    rw [List.drop_left] at h ⊢
    obtain ⟨es, rfl, hiff⟩ := distParseLoop_iff h
    have hprefix : distSpecPrefix.map lowerDigit = distSpecPrefix := by decide +kernel
    rw [List.map_append, hprefix, distSerializeManifest, List.append_cancel_left_eq,
      hiff]
  · cases h

theorem distManifest_nested :
    distParseManifest (distSerializeManifest [⟨[], bytes ">;"⟩, ⟨bytes "a", []⟩]) =
      some [⟨[], bytes ">;"⟩, ⟨bytes "a", []⟩] ∧
    (bytes "__metatup_dist_v1__:6A>;").map lowerDigit =
      distSerializeManifest [⟨bytes "j", []⟩] :=
  ⟨(distManifest_iff [] [⟨[], bytes ">;"⟩, ⟨bytes "a", []⟩]).1 ⟨by decide, by decide⟩,
    ((distManifest_iff (bytes "__metatup_dist_v1__:6A>;") [⟨bytes "j", []⟩]).2 (by decide +kernel)).2
      (by decide +kernel)⟩

/-- The text is accepted, and what is behind the null byte is gone. -/
theorem distManifest_null_byte :
    distParseManifest (bytes "__metatup_dist_v1__:610062>63;") = some [⟨bytes "a", bytes "c"⟩] ∧
      (bytes "__metatup_dist_v1__:610062>63;").map lowerDigit ≠
        distSerializeManifest [⟨bytes "a", bytes "c"⟩] := by
  decide +kernel

end Metatup
