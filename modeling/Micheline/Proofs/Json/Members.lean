/-
Micheline/Proofs/Json/Members.lean

Members of objects whose names are all different.  Setting them one after another changes
nothing (`Members.ofList_of_nodup`), and each is found by its name (`Members.find?_of_mem`).

Where names repeat, setting the members keeps each name once, where it stood first
(`Members.map_fst_ofList`).
-/
import Mathlib.Data.List.Induction
import Mathlib.Data.List.Nodup
import Micheline.Json.Basic

namespace Micheline.Members

variable {α : Type} {name : String} {value : α} {done ms : List (String × α)}

/-- A member of a new name goes to the end. -/
theorem set_of_notMem (h : name ∉ ms.map (·.1)) : set name value ms = ms ++ [(name, value)] := by
  induction ms with
  | nil => rfl
  | cons m ms ih =>
    obtain ⟨hne, hrest⟩ := List.ne_and_not_mem_of_not_mem_cons h
    rw [set, if_neg (Ne.symm hne), ih hrest, List.cons_append]

/-- Members of different names are set one behind the other. -/
theorem foldl_set_of_nodup (h : ((done ++ ms).map (·.1)).Nodup) :
    ms.foldl (fun done (name, value) => set name value done) done = done ++ ms := by
  induction ms generalizing done with
  | nil => rw [List.foldl_nil, List.append_nil]
  | cons m ms ih =>
    have happend : done ++ m :: ms = (done ++ [m]) ++ ms := by simp
    have hfresh : m.1 ∉ done.map (·.1) := by
      rw [List.map_append, List.map_cons] at h
      exact fun hmem => (List.nodup_append.1 h).2.2 _ hmem _ List.mem_cons_self rfl
    rw [happend] at h ⊢
    show ms.foldl _ (set m.1 m.2 done) = _
    rw [set_of_notMem hfresh]
    exact ih h

/-- **Members of different names stay as they are.** -/
theorem ofList_of_nodup (h : (ms.map (·.1)).Nodup) : ofList ms = ms :=
  foldl_set_of_nodup (show (([] ++ ms).map Prod.fst).Nodup from h)

/-- **Each member is found by its name.** -/
theorem find?_of_mem (h : (ms.map (·.1)).Nodup) (hmem : (name, value) ∈ ms) :
    find? name ms = some value := by
  induction ms with
  | nil => cases hmem
  | cons m ms ih =>
    obtain ⟨hm, hms⟩ := List.nodup_cons.1 h
    rcases List.mem_cons.1 hmem with rfl | hmem
    · exact if_pos rfl
    · have hne : m.1 ≠ name := by
        rintro rfl
        exact hm (List.mem_map.2 ⟨_, hmem, rfl⟩)
      rw [find?, if_neg hne]
      exact ih hms hmem

/-! ### Names that repeat -/

/-- A member that is set has a new name at the end, or the place of its name. -/
theorem map_fst_set : (set name value ms).map (·.1)
    = if name ∈ ms.map (·.1) then ms.map (·.1) else ms.map (·.1) ++ [name] := by
  induction ms with
  | nil => rfl
  | cons m ms ih =>
    rw [set]
    by_cases hname : m.1 = name
    · rw [if_pos hname, if_pos (by simp [hname]), List.map_cons, List.map_cons]
    · have hmem : name ∈ (m :: ms).map (·.1) ↔ name ∈ ms.map (·.1) := by
        rw [List.map_cons, List.mem_cons, or_iff_right (Ne.symm hname)]
      rw [if_neg hname, List.map_cons, ih]
      simp only [hmem]
      split <;> rfl

/-- Setting a member brings no other new one. -/
theorem mem_of_set {m : String × α} (h : m ∈ set name value ms) : m = (name, value) ∨ m ∈ ms := by
  induction ms with
  | nil => exact .inl (List.mem_singleton.1 h)
  | cons n ms ih =>
    rw [set] at h
    split at h
    next hname =>
      rcases List.mem_cons.1 h with rfl | h
      · exact .inl (Prod.ext hname rfl)
      · exact .inr (List.mem_cons_of_mem n h)
    next =>
      rcases List.mem_cons.1 h with rfl | h
      · exact .inr List.mem_cons_self
      · exact (ih h).imp_right (List.mem_cons_of_mem n)

theorem ofList_append_singleton (ms : List (String × α)) (m : String × α) :
    ofList (ms ++ [m]) = set m.1 m.2 (ofList ms) := by
  rw [ofList, List.foldl_append]
  rfl

/-- **Each name stays where it stood first.** -/
theorem map_fst_ofList (ms : List (String × α)) :
    (ofList ms).map (·.1) = (ms.map (·.1)).eraseDups := by
  induction ms using List.reverseRecOn with
  | nil => rfl
  | append_singleton ms m ih =>
    rw [ofList_append_singleton, map_fst_set, ih, List.map_append, List.eraseDups_append]
    by_cases hmem : m.1 ∈ ms.map (·.1)
    · rw [if_pos (List.mem_eraseDups.2 hmem)]
      simp [List.removeAll, hmem]
    · rw [if_neg fun h => hmem (List.mem_eraseDups.1 h)]
      simp [List.removeAll, hmem, List.eraseDups_cons]

/-- No two members of an object have one name. -/
theorem nodup_ofList (ms : List (String × α)) : ((ofList ms).map (·.1)).Nodup := by
  induction ms using List.reverseRecOn with
  | nil => exact List.nodup_nil
  | append_singleton ms m ih =>
    rw [ofList_append_singleton, map_fst_set]
    split
    next => exact ih
    next hmem =>
      refine List.nodup_append.2 ⟨ih, List.nodup_singleton _, fun a ha b hb hab => hmem ?_⟩
      rwa [← List.mem_singleton.1 hb, ← hab]

theorem mem_of_ofList {m : String × α} (h : m ∈ ofList ms) : m ∈ ms := by
  induction ms using List.reverseRecOn with
  | nil => cases h
  | append_singleton ms n ih =>
    rw [ofList_append_singleton] at h
    rcases mem_of_set h with rfl | h
    · exact List.mem_append_right _ (List.mem_singleton_self _)
    · exact List.mem_append_left _ (ih h)

/-- The names are those of the members exactly if none repeats. -/
theorem map_fst_ofList_eq_iff :
    (ofList ms).map (·.1) = ms.map (·.1) ↔ (ms.map (·.1)).Nodup := by
  constructor
  · intro h
    rw [← h]
    exact nodup_ofList ms
  · intro h
    rw [ofList_of_nodup h]

end Micheline.Members
