import FrontEnd.Text

/-!
# Dictionaries in key order

A `Dictionary α` binds texts to values, each key once, and lists its entries by increasing key (bytes compared one
after the other).

* `Dictionary.find?`, `Dictionary.contains`, `Dictionary.insert`, `Dictionary.toList`;
* `Dictionary.find?_insert` : an insertion changes the value of its own key and of no other.
-/

namespace FrontEnd

/-- Texts bound to values, in increasing order of key. -/
structure Dictionary (α : Type) where
  toList : List (Text × α) := []
  sorted : toList.Pairwise (fun a b => a.1 < b.1) := by exact List.Pairwise.nil

namespace Dictionary
variable {α : Type}

/-- The dictionary without entries. -/
def empty : Dictionary α := {}

instance : EmptyCollection (Dictionary α) := ⟨empty⟩
instance : Inhabited (Dictionary α) := ⟨empty⟩

/-- The value bound to `key`. -/
def find? (d : Dictionary α) (key : Text) : Option α := d.toList.lookup key

/-- Whether `key` is bound. -/
def contains (d : Dictionary α) (key : Text) : Bool := (d.find? key).isSome

/-- The entries with `key` bound to `value`, put at its place in the order. -/
def place (key : Text) (value : α) : List (Text × α) → List (Text × α)
  | [] => [(key, value)]
  | (k, v) :: rest =>
    if key < k then (key, value) :: (k, v) :: rest
    else if key = k then (key, value) :: rest
    else (k, v) :: place key value rest

theorem key_mem_place {key : Text} {value : α} {entries : List (Text × α)} {e : Text × α}
    (h : e ∈ place key value entries) : e.1 = key ∨ e ∈ entries := by
  fun_induction place key value entries <;> grind

theorem text_lt_trans {a b c : Text} (h : a < b) (h' : b < c) : a < c := List.lt_trans h h'

theorem text_lt_of_not_lt_of_ne {a b : Text} (h : ¬ a < b) (h' : a ≠ b) : b < a := by
  rcases List.le_iff_lt_or_eq.1 (List.not_lt.1 h) with hlt | heq
  · exact hlt
  · exact absurd heq.symm h'

theorem pairwise_place (key : Text) (value : α) {entries : List (Text × α)}
    (h : entries.Pairwise (fun a b => a.1 < b.1)) :
    (place key value entries).Pairwise (fun a b => a.1 < b.1) := by
  fun_induction place key value entries with
  | case1 => exact List.pairwise_singleton ..
  | case2 k v rest hlt =>
    refine List.pairwise_cons.2 ⟨?_, h⟩
    intro e he
    rcases List.mem_cons.1 he with rfl | he
    · exact hlt
    · exact text_lt_trans hlt (List.rel_of_pairwise_cons h he)
  | case3 k v rest => simpa using h
  | case4 k v rest hnlt hne ih =>
    refine List.pairwise_cons.2 ⟨?_, ih (List.Pairwise.of_cons h)⟩
    intro e he
    rcases key_mem_place he with heq | he
    · exact heq ▸ text_lt_of_not_lt_of_ne hnlt hne
    · exact List.rel_of_pairwise_cons h he

/-- `d` with `key` bound to `value`. -/
def insert (d : Dictionary α) (key : Text) (value : α) : Dictionary α :=
  ⟨place key value d.toList, pairwise_place key value d.sorted⟩

/-- The bound keys, increasing. -/
def keys (d : Dictionary α) : List Text := d.toList.map (·.1)

@[simp] theorem find?_empty (key : Text) : (empty : Dictionary α).find? key = none := rfl

theorem lookup_place (key key' : Text) (value : α) (entries : List (Text × α)) :
    (place key value entries).lookup key' = if key' = key then some value else entries.lookup key' := by
  fun_induction place key value entries <;> simp only [List.lookup_cons, List.lookup_nil] <;> grind

theorem find?_insert (d : Dictionary α) (key key' : Text) (value : α) :
    (d.insert key value).find? key' = if key' = key then some value else d.find? key' :=
  lookup_place key key' value d.toList

@[simp] theorem find?_insert_self (d : Dictionary α) (key : Text) (value : α) :
    (d.insert key value).find? key = some value := by
  simp [find?_insert]

end Dictionary
end FrontEnd
