import Metatup.Entry
import Metatup.Lib.Restart

/-!
# The ignore file

In a directory whose `.gitignore` is generated, the updater keeps what stands in the file up to a marker
line and writes the generated names behind it. When the directive is gone, the parser takes the marker
and what is behind it away again. Both look for the marker with a matcher that starts over.

* `updaterGitignore`, `removeTupGitignore`: the two functions on the text of the file.
* `gitignore_keeps_user_text_iff`: for which texts in front of the marker they are inverse.
-/

namespace Metatup

open Lib

/-- The marker line. -/
def tgStr : Text := "##### TUP GITIGNORE #####\n".toList

/-- Source: `db.c` `write_gitignore_line` -/
def writeGitignoreLine (name : Text) : Text :=
  '/' :: (name.flatMap fun c => if c = '[' ∨ c = ']' then ['\\', c] else [c]) ++ ['\n']

/-- Source: `db.c` `tup_db_write_gitignore`, with the names that the query finds -/
def tupDbWriteGitignore (names : List Text) (skipSelf : Bool) : Text :=
  (names.filter fun name => ¬ skipSelf ∨ name ≠ ".gitignore".toList).flatMap writeGitignoreLine

/-- What `gitignore` writes behind the marker. -/
def generatedLines (top : Bool) (names : List Text) (skipSelf : Bool) : Text :=
  "##### Lines below automatically generated by Tup.\n".toList ++ "##### Do not edit.\n".toList ++
    (if top then ".tup\n".toList ++ ".metatup\n".toList else []) ++ tupDbWriteGitignore names skipSelf

/-- The new text of the file. `top` tells whether this is the top directory. Source: `updater.c`
`gitignore` -/
def updaterGitignore (top : Bool) (names : List Text) (old : Option Text) : Text :=
  let (copied, copiedTgStr) := upTo tgStr 0 (old.getD [])
  let bytesCopied := if copiedTgStr then copied.length - tgStr.length else copied.length
  copied ++ (if copiedTgStr then [] else tgStr) ++ generatedLines top names (0 < bytesCopied)

/-- The new text of the file, or nothing when the file is left to be deleted. Source: `parser.c`
`remove_tup_gitignore` -/
def removeTupGitignore (old : Text) : Option Text :=
  let (copied, copiedTgStr) := upTo tgStr 0 old
  let kept := if copiedTgStr then copied.take (copied.length - tgStr.length) else copied
  if kept = [] then none else some kept

/-- The text of the file after one update after another, each with the names of its time. -/
def gitignored (top : Bool) (updates : List (List Text)) (old : Text) : Text :=
  updates.foldl (fun old names => updaterGitignore top names (some old)) old

variable {user : Text}

/-- A text that ends a line leaves the matcher at its start. -/
theorem settled_of_newline (huser : ¬ tgStr <:+: user ++ ['\n']) : Settled tgStr (user ++ ['\n']) := by
  rw [settled_iff huser]
  have hread := take_foldl_suffix tgStr (user ++ ['\n'])
  rw [List.foldl_append] at hread ⊢
  show advance tgStr _ '\n' = 0
  by_contra hgo
  have hline : tgStr[user.foldl (advance tgStr) 0]? = some '\n' := by
    by_contra hother
    exact hgo (if_neg hother)
  -- only the end of the marker is the end of a line
  have hend : ∀ i < 26, tgStr[i]? = some '\n' → i = 25 := by decide
  obtain ⟨hlt, -⟩ := List.getElem?_eq_some_iff.1 hline
  have hall : List.foldl (advance tgStr) (user.foldl (advance tgStr) 0) ['\n'] = tgStr.length := by
    show advance tgStr _ '\n' = 26
    rw [advance, if_pos hline, hend _ hlt hline]
  rw [hall, List.take_length] at hread
  exact huser hread.isInfix

/-- The text that an update writes. -/
def withMarker (top : Bool) (names : List Text) (user : Text) : Text :=
  user ++ tgStr ++ generatedLines top names (user ≠ [])

theorem updaterGitignore_user (top : Bool) (names : List Text) (huser : ¬ tgStr <:+: user) :
    updaterGitignore top names (some user) = withMarker top names user := by
  unfold updaterGitignore withMarker
  rw [Option.getD_some, upTo_of_not_infix huser]
  simp [List.length_pos_iff]

/-- Where the marker is found, another update replaces what is behind it. -/
theorem updaterGitignore_withMarker (top : Bool) (names names' : List Text) (huser : ¬ tgStr <:+: user)
    (hsettled : Settled tgStr user) :
    updaterGitignore top names (some (withMarker top names' user)) = withMarker top names user := by
  have hne : tgStr ≠ [] := by decide
  have hread := (upTo_append_eq_iff hne huser (generatedLines top names' (user ≠ []))).2
    hsettled.foldl_eq
  rw [← List.append_assoc] at hread
  unfold updaterGitignore
  rw [Option.getD_some, withMarker, hread]
  simp [withMarker, List.length_pos_iff]

theorem gitignored_settled (top : Bool) (huser : ¬ tgStr <:+: user) (hsettled : Settled tgStr user)
    (updates : List (List Text)) (names : List Text) :
    gitignored top (updates ++ [names]) user = withMarker top names user := by
  induction updates using List.reverseRecOn generalizing names with
  | nil => exact updaterGitignore_user top names huser
  | append_singleton updates names' ih =>
    have hlast : gitignored top (updates ++ [names'] ++ [names]) user =
        updaterGitignore top names (some (gitignored top (updates ++ [names']) user)) := by
      unfold gitignored
      rw [List.foldl_append]
      rfl
    rw [hlast, ih, updaterGitignore_withMarker top names names' huser hsettled]

theorem removeTupGitignore_settled (top : Bool) (names : List Text) (huser : ¬ tgStr <:+: user)
    (hsettled : Settled tgStr user) :
    removeTupGitignore (withMarker top names user) = if user = [] then none else some user := by
  have hne : tgStr ≠ [] := by decide
  have hread := (upTo_append_eq_iff hne huser (generatedLines top names (user ≠ []))).2
    hsettled.foldl_eq
  rw [← List.append_assoc] at hread
  unfold removeTupGitignore
  rw [withMarker, hread]
  simp

/-- What is taken away can only be the marker behind the text when the matcher finds it there. -/
theorem settled_of_removeTupGitignore {top : Bool} {names : List Text} (huser : ¬ tgStr <:+: user)
    (h : removeTupGitignore (withMarker top names user) = if user = [] then none else some user) :
    Settled tgStr user := by
  by_cases hnil : user = []
  · rw [hnil]
    exact .nil
  have hne : tgStr ≠ [] := by decide
  rw [settled_iff huser, ← upTo_append_eq_iff hne huser (generatedLines top names (user ≠ [])),
    ← List.append_assoc]
  rw [if_neg hnil] at h
  unfold removeTupGitignore at h
  unfold withMarker at h
  have hprefix := upTo_prefix tgStr 0 (user ++ tgStr ++ generatedLines top names (user ≠ []))
  have hnot := @upTo_not_found _ _ tgStr 0 (user ++ tgStr ++ generatedLines top names (user ≠ []))
  rcases hread : upTo tgStr 0 (user ++ tgStr ++ generatedLines top names (user ≠ []))
    with ⟨copied, copiedTgStr⟩
  rw [hread] at h hprefix hnot
  have hmarker : tgStr.length = 26 := rfl
  dsimp only at h hprefix hnot
  rcases copiedTgStr with _ | _
  · -- the marker was not found, so that nothing was taken away
    rw [if_neg Bool.false_ne_true, hnot rfl, if_neg (by simp [hnil])] at h
    have hlen := congrArg List.length (Option.some.inj h)
    rw [List.length_append, List.length_append] at hlen
    omega
  · rw [if_pos rfl] at h
    split at h
    · exact absurd h (Option.some_ne_none user).symm
    have hlen := congrArg List.length (Option.some.inj h)
    rw [List.length_take] at hlen
    have hpos := List.length_pos_iff.2 hnil
    have hsame : copied.length = (user ++ tgStr).length := by
      rw [List.length_append]
      omega
    have heq : copied = user ++ tgStr :=
      (List.prefix_of_prefix_length_le hprefix (List.prefix_append _ _) hsame.le).eq_of_length hsame
    rw [heq]

/-- The two functions keep the text in front of the marker, after any number of updates, exactly when
this text leaves the matcher at its start. -/
theorem gitignore_keeps_user_text_iff (top : Bool) (huser : ¬ tgStr <:+: user) :
    (∀ (updates : List (List Text)) (names : List Text),
      gitignored top (updates ++ [names]) user =
          user ++ tgStr ++ generatedLines top names (user ≠ []) ∧
        removeTupGitignore (gitignored top (updates ++ [names]) user) =
          if user = [] then none else some user) ↔
      Settled tgStr user := by
  constructor
  · intro h
    obtain ⟨hfirst, hremove⟩ := h [] []
    rw [hfirst] at hremove
    exact settled_of_removeTupGitignore huser hremove
  · intro h updates names
    rw [gitignored_settled top huser h]
    exact ⟨rfl, removeTupGitignore_settled top names huser h⟩

/-- A line of the user's own, and two updates. -/
theorem gitignore_keeps_line :
    gitignored false [["a.o".toList], ["b.o".toList]] "*.d\n".toList =
        "*.d\n".toList ++ tgStr ++ generatedLines false ["b.o".toList] true ∧
      removeTupGitignore (gitignored false [["a.o".toList], ["b.o".toList]] "*.d\n".toList) =
        some "*.d\n".toList := by
  have huser : ¬ tgStr <:+: "*.d\n".toList := by decide
  have hsettled : Settled tgStr "*.d\n".toList := @settled_of_newline "*.d".toList huser
  exact (gitignore_keeps_user_text_iff false huser).2 hsettled [["a.o".toList]] ["b.o".toList]

/-- Behind a `#` the marker is not found. -/
theorem marker_after_hash_lost : ¬ tgStr <:+: ['#'] ∧
    ¬ ∀ (updates : List (List Text)) (names : List Text),
      gitignored false (updates ++ [names]) ['#'] =
          ['#'] ++ tgStr ++ generatedLines false names true ∧
        removeTupGitignore (gitignored false (updates ++ [names]) ['#']) = some ['#'] := by
  refine ⟨by decide, fun h => ?_⟩
  have hremove := (h [] []).2
  exact absurd hremove (by decide +kernel)

end Metatup
