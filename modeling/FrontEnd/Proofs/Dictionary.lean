import FrontEnd.Dictionary
import Mathlib.Data.List.Nodup
import Mathlib.Data.List.Perm.Basic

/-!
# Entries of dictionaries

* `Dictionary.mem_toList` : the entries are what look-up finds; `Dictionary.eq_of_find?_eq` : so dictionaries in which
  it finds the same are equal;
* `Dictionary.map` : a dictionary with its values changed; `find?_map`, `map_insert`, `map_congr`.
-/

namespace FrontEnd.Dictionary
variable {α β : Type}

theorem eq_of_toList_eq {d d' : Dictionary α} (h : d.toList = d'.toList) : d = d' := by
  cases d
  cases d'
  cases h
  rfl

theorem lookup_eq_some_iff {entries : List (Text × α)} (h : entries.Pairwise (fun a b => a.1 < b.1)) {key : Text}
    {value : α} : entries.lookup key = some value ↔ (key, value) ∈ entries := by
  induction entries with
  | nil => simp
  | cons entry rest ih =>
    obtain ⟨k, v⟩ := entry
    obtain ⟨hlt, hrest⟩ := List.pairwise_cons.1 h
    rw [List.lookup_cons, List.mem_cons, Prod.mk.injEq]
    by_cases hk : key = k
    · subst hk
      simp only [beq_self_eq_true, Option.some.injEq, true_and]
      refine ⟨fun hv => .inl hv.symm, ?_⟩
      rintro (rfl | hm)
      · rfl
      · exact absurd (hlt _ hm) (List.lt_irrefl key)
    · simp only [beq_eq_false_iff_ne.2 hk, hk, false_and, false_or]
      exact ih hrest

theorem mem_toList {d : Dictionary α} {key : Text} {value : α} : (key, value) ∈ d.toList ↔ d.find? key = some value :=
  (lookup_eq_some_iff d.sorted).symm

theorem nodup_keys (d : Dictionary α) : d.keys.Nodup := by
  refine List.pairwise_map.2 (d.sorted.imp fun {a b} hlt heq => ?_)
  rw [heq] at hlt
  exact List.lt_irrefl _ hlt

theorem nodup_toList (d : Dictionary α) : d.toList.Nodup := List.Nodup.of_map Prod.fst d.nodup_keys

theorem eq_of_find?_eq {d d' : Dictionary α} (h : ∀ key, d.find? key = d'.find? key) : d = d' := by
  refine eq_of_toList_eq (List.Perm.eq_of_pairwise ?_ d.sorted d'.sorted ?_)
  · intro a b _ _ hab hba
    exact absurd (text_lt_trans hab hba) (List.lt_irrefl _)
  · rw [List.perm_ext_iff_of_nodup d.nodup_toList d'.nodup_toList]
    rintro ⟨key, value⟩
    rw [mem_toList, mem_toList, h]

/-- `d` with `change` applied to its values. -/
def map (change : α → β) (d : Dictionary α) : Dictionary β :=
  ⟨d.toList.map fun entry => (entry.1, change entry.2), List.pairwise_map.2 d.sorted⟩

theorem find?_map (change : α → β) (d : Dictionary α) (key : Text) :
    (d.map change).find? key = (d.find? key).map change := by
  show (d.toList.map fun entry => (entry.1, change entry.2)).lookup key = (d.toList.lookup key).map change
  induction d.toList with
  | nil => rfl
  | cons entry rest ih =>
    rw [List.map_cons, List.lookup_cons, List.lookup_cons]
    cases key == entry.1 with
    | true => rfl
    | false => exact ih

theorem contains_map (change : α → β) (d : Dictionary α) (key : Text) :
    (d.map change).contains key = d.contains key := by
  rw [contains, contains, find?_map, Option.isSome_map]

theorem map_insert (change : α → β) (d : Dictionary α) (key : Text) (value : α) :
    (d.insert key value).map change = (d.map change).insert key (change value) := by
  refine eq_of_toList_eq ?_
  show (place key value d.toList).map _ = place key (change value) (d.toList.map _)
  fun_induction place key value d.toList with
  | case1 => rfl
  | case2 k v rest hlt => simp [place, hlt]
  | case3 v rest hlt =>
    rw [List.map_cons, List.map_cons, place, if_neg hlt, if_pos rfl]
  | case4 k v rest hlt hne ih => simp [place, hlt, hne, ih]

theorem map_congr {change change' : α → β} {d : Dictionary α}
    (h : ∀ key value, d.find? key = some value → change value = change' value) : d.map change = d.map change' := by
  refine eq_of_toList_eq (List.map_congr_left fun entry hm => ?_)
  rw [h entry.1 entry.2 (mem_toList.1 hm)]

end FrontEnd.Dictionary
