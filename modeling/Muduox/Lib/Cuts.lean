import Mathlib.Data.List.Infix

/-!
# Where a sequence is cut

The same items can be cut into pieces in two ways, and one way may be coarser
than the other: lines into buffers, buffers into files. `CutAt ls cs` says that
every cut of `cs` is one of `ls`. It is stated by what comes before a cut, so
that pieces without any item neither matter nor get lost, and it holds of the
pieces so far while more are to come.
-/

variable {α : Type*}

/-- What comes before a cut of `cs` comes before a cut of `ls`. -/
def CutAt (ls cs : List (List α)) : Prop :=
  ∀ ds, ds <+: cs → ∃ ks, ks <+: ls ∧ ks.flatten = ds.flatten

namespace CutAt

variable {ls ls' cs cs' : List (List α)}

theorem nil (ls : List (List α)) : CutAt ls [] := by
  intro ds h
  rw [List.prefix_nil.mp h]
  exact ⟨[], List.nil_prefix, rfl⟩

theorem trans {es : List (List α)} (h : CutAt ls cs) (h' : CutAt cs es) : CutAt ls es := by
  intro ds hds
  obtain ⟨ks, hks, he⟩ := h' ds hds
  obtain ⟨js, hjs, hj⟩ := h ks hks
  exact ⟨js, hjs, hj.trans he⟩

theorem of_isPrefix (h : CutAt ls cs) (hp : cs' <+: cs) : CutAt ls cs' :=
  fun ds hds => h ds (hds.trans hp)

theorem mono (h : CutAt ls cs) (hp : ls <+: ls') : CutAt ls' cs := by
  intro ds hds
  obtain ⟨ks, hks, he⟩ := h ds hds
  exact ⟨ks, hks.trans hp, he⟩

/-- One more piece, up to the end of everything. -/
theorem snoc (h : CutAt ls cs) {c : List α} (hall : ls.flatten = cs.flatten ++ c) :
    CutAt ls (cs ++ [c]) := by
  intro ds hds
  rcases List.prefix_concat_iff.mp hds with rfl | hds
  · exact ⟨ls, List.prefix_rfl, by rw [hall, List.flatten_append, List.flatten_singleton]⟩
  · exact h ds hds

theorem snoc_nil (h : CutAt ls cs) : CutAt ls (cs ++ [[]]) := by
  intro ds hds
  rcases List.prefix_concat_iff.mp hds with rfl | hds
  · obtain ⟨ks, hks, hk⟩ := h cs List.prefix_rfl
    exact ⟨ks, hks, by rw [hk]; simp⟩
  · exact h ds hds

/-- The last piece gets longer. -/
theorem extend {c c' : List α} (h : CutAt ls (cs ++ [c])) (hp : ls <+: ls')
    (hall : ls'.flatten = cs.flatten ++ c') : CutAt ls' (cs ++ [c']) :=
  ((h.of_isPrefix (List.prefix_append _ _)).mono hp).snoc hall

/-- A piece without items. -/
theorem erase_nil {as bs : List (List α)} (h : CutAt ls (as ++ [] :: bs)) :
    CutAt ls (as ++ bs) := by
  rintro ds ⟨es, he⟩
  rcases List.append_eq_append_iff.mp he with ⟨as', rfl, rfl⟩ | ⟨bs', rfl, rfl⟩
  · refine h ds ?_
    rw [List.append_assoc]
    exact List.prefix_append _ _
  · obtain ⟨ks, hks, hk⟩ := h (as ++ [] :: bs')
      ((List.prefix_append_right_inj as).mpr ⟨es, rfl⟩)
    exact ⟨ks, hks, by rw [hk]; simp⟩

/-- Pieces put together in groups. -/
theorem groups (gs : List (List (List α))) : CutAt gs.flatten (gs.map List.flatten) := by
  rintro ds hds
  obtain ⟨fs, hfs, rfl⟩ := List.prefix_map_iff.mp hds
  exact ⟨fs.flatten, hfs.flatten, List.flatten_flatten⟩

end CutAt
