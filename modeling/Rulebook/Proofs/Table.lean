import Mathlib.Data.List.Induction
import Rulebook.Table

/-!
# Tables and their entries

A table made from a list of entries holds some of them, and all of them if their keys are distinct.
Looking up a key finds the entry that has it. Of entries that share a key the last gives the value and
the first the place.
-/

namespace Rulebook

namespace Entries

variable {α : Type} {entries : List (String × α)}

theorem mem_put {key : String} {value : α} {e : String × α} (h : e ∈ put key value entries) :
    e = (key, value) ∨ e ∈ entries := by
  induction entries with
  | nil => simpa [put] using h
  | cons first rest ih =>
    rcases first with ⟨k, v⟩
    by_cases same : k = key
    · simp only [put, if_pos same, List.mem_cons] at h
      rcases h with rfl | h
      · exact .inl (by rw [same])
      · exact .inr (List.mem_cons_of_mem _ h)
    · simp only [put, if_neg same, List.mem_cons] at h
      rcases h with rfl | h
      · exact .inr (by simp)
      · exact (ih h).imp_right (List.mem_cons_of_mem _)

theorem put_of_not_mem {key : String} {value : α} (new : key ∉ entries.map Prod.fst) :
    put key value entries = entries ++ [(key, value)] := by
  induction entries with
  | nil => rfl
  | cons first rest ih =>
    rcases first with ⟨k, v⟩
    simp only [List.map_cons, List.mem_cons, not_or] at new
    simp only [put, if_neg (Ne.symm new.1), ih new.2, List.cons_append]

theorem get?_eq_some_iff (distinct : (entries.map Prod.fst).Nodup) {key : String} {value : α} :
    get? key entries = some value ↔ (key, value) ∈ entries := by
  induction entries with
  | nil => simp [get?]
  | cons first rest ih =>
    rcases first with ⟨k, v⟩
    rw [List.map_cons, List.nodup_cons] at distinct
    by_cases same : k = key
    · subst same
      have absent : (k, value) ∉ rest := fun member =>
        distinct.1 (List.mem_map.mpr ⟨_, member, rfl⟩)
      simp only [get?, if_pos, Option.some.injEq, List.mem_cons, Prod.mk.injEq, absent, or_false,
        true_and]
      exact eq_comm
    · simp only [get?, if_neg same, ih distinct.2, List.mem_cons, Prod.mk.injEq, Ne.symm same,
        false_and, false_or]

end Entries

namespace Table

variable {α : Type} {entries : List (String × α)}

/-- A table holds only entries that it is made of. -/
theorem mem_of_mem_ofList {e : String × α} (h : e ∈ (ofList entries).entries) : e ∈ entries := by
  have fold {l : List (String × α)} (t : Table α)
      (h : e ∈ (l.foldl (fun t e => t.insert e.1 e.2) t).entries) : e ∈ t.entries ∨ e ∈ l := by
    induction l generalizing t with
    | nil => exact .inl h
    | cons first rest ih =>
      rcases ih _ h with h | h
      · rcases Entries.mem_put h with rfl | h
        · exact .inr (by simp)
        · exact .inl h
      · exact .inr (List.mem_cons_of_mem _ h)
  simpa using fold .empty h

/-- Entries with distinct keys stay as they are. -/
theorem entries_ofList (distinct : (entries.map Prod.fst).Nodup) :
    (ofList entries).entries = entries := by
  have fold {l : List (String × α)} (t : Table α)
      (distinct : ((t.entries ++ l).map Prod.fst).Nodup) :
      (l.foldl (fun t e => t.insert e.1 e.2) t).entries = t.entries ++ l := by
    induction l generalizing t with
    | nil => simp
    | cons first rest ih =>
      have new : first.1 ∉ t.entries.map Prod.fst := by
        rw [List.map_append, List.map_cons, List.nodup_append] at distinct
        intro member
        exact distinct.2.2 _ member _ List.mem_cons_self rfl
      have step : (t.insert first.1 first.2).entries = t.entries ++ [first] :=
        Entries.put_of_not_mem new
      rw [List.foldl_cons, ih _ (by simpa [step] using distinct), step]
      simp
  exact fold .empty distinct

theorem find?_eq_some_iff {t : Table α} {key : String} {value : α} :
    t.find? key = some value ↔ (key, value) ∈ t.entries :=
  Entries.get?_eq_some_iff t.distinct

/-- In a table of entries with distinct keys every entry is found. -/
theorem find?_ofList_eq_some_iff (distinct : (entries.map Prod.fst).Nodup) {key : String} {value : α} :
    (ofList entries).find? key = some value ↔ (key, value) ∈ entries := by
  rw [find?_eq_some_iff, entries_ofList distinct]

/-- The last entry is written after the others. -/
theorem ofList_concat (entries : List (String × α)) (e : String × α) :
    ofList (entries ++ [e]) = (ofList entries).insert e.1 e.2 := by
  rw [ofList, List.foldl_append]
  rfl

/-- A key stands where it came first. -/
theorem keys_ofList (entries : List (String × α)) :
    (ofList entries).keys = (entries.map Prod.fst).eraseDups := by
  induction entries using List.reverseRecOn with
  | nil => rfl
  | append_singleton entries e ih =>
    rw [ofList_concat, keys_insert, ih, List.map_append, List.eraseDups_append]
    by_cases present : e.1 ∈ entries.map Prod.fst
    · rw [if_pos (List.mem_eraseDups.mpr present)]
      simp [List.cons_removeAll, present]
    · rw [if_neg fun member => present (List.mem_eraseDups.mp member)]
      simp [List.cons_removeAll, present, List.eraseDups_cons]

/-- A key has the value that came last. -/
theorem find?_ofList (entries : List (String × α)) (key : String) :
    (ofList entries).find? key = Entries.get? key entries.reverse := by
  induction entries using List.reverseRecOn with
  | nil => rfl
  | append_singleton entries e ih =>
    rw [ofList_concat, find?_insert, ih, List.reverse_concat]
    rfl

theorem mem_values_of_find? {t : Table α} {key : String} {value : α}
    (h : t.find? key = some value) :
    value ∈ t.values :=
  List.mem_map_of_mem (find?_eq_some_iff.mp h)

end Table

end Rulebook
