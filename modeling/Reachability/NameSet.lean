/-!
# NameSet — a set of names in order

The names of a set, ascending by code points, each once.
-/

namespace Reachability

/-- A set of names. -/
structure NameSet where
  names : List String
  sorted : names.Pairwise (· < ·)
  deriving DecidableEq

namespace NameSet

/-- `name` put at its place among ascending names, unless it is there already. -/
def place (name : String) : List String → List String
  | [] => [name]
  | n :: rest =>
    if name < n then name :: n :: rest
    else if name = n then n :: rest
    else n :: place name rest

theorem mem_place {name x : String} {names : List String} :
    x ∈ place name names ↔ x = name ∨ x ∈ names := by
  induction names with
  | nil => simp [place]
  | cons n rest ih =>
    unfold place
    split
    · simp
    · split
      · next h => subst h; simp
      · simp only [List.mem_cons, ih]
        exact or_left_comm

theorem sorted_place {name : String} {names : List String} (h : names.Pairwise (· < ·)) :
    (place name names).Pairwise (· < ·) := by
  induction names with
  | nil => simp [place]
  | cons n rest ih =>
    have hn := List.pairwise_cons.mp h
    unfold place
    split
    · next hlt =>
      refine List.pairwise_cons.mpr ⟨fun x hx => ?_, h⟩
      rcases List.mem_cons.mp hx with rfl | hx
      · exact hlt
      · exact String.lt_trans hlt (hn.1 x hx)
    · next hle =>
      split
      · exact h
      · next hne =>
        refine List.pairwise_cons.mpr ⟨fun x hx => ?_, ih hn.2⟩
        rcases mem_place.mp hx with rfl | hx
        · refine String.not_le.mp fun hge => hne ?_
          exact String.le_antisymm hge (String.not_lt.mp hle)
        · exact hn.1 x hx

theorem sorted_nil : ([] : List String).Pairwise (· < ·) := .nil

/-- The set without names. -/
def empty : NameSet := ⟨[], sorted_nil⟩

instance : EmptyCollection NameSet := ⟨empty⟩
instance : Inhabited NameSet := ⟨empty⟩
instance : Membership String NameSet := ⟨fun set name => name ∈ set.names⟩

/-- Whether `name` is in the set. -/
def contains (set : NameSet) (name : String) : Bool := set.names.contains name

instance (set : NameSet) (name : String) : Decidable (name ∈ set) :=
  inferInstanceAs (Decidable (name ∈ set.names))

/-- The set with `name` in it. -/
def insert (set : NameSet) (name : String) : NameSet :=
  ⟨place name set.names, sorted_place set.sorted⟩

/-- The set of some names. -/
def ofList (names : List String) : NameSet := names.foldl insert empty

/-- How many names the set has. -/
def size (set : NameSet) : Nat := set.names.length

@[simp] theorem not_mem_empty (name : String) : name ∉ (∅ : NameSet) := List.not_mem_nil

@[simp] theorem mem_insert {set : NameSet} {name x : String} :
    x ∈ set.insert name ↔ x = name ∨ x ∈ set := mem_place

@[simp] theorem contains_iff {set : NameSet} {name : String} :
    set.contains name = true ↔ name ∈ set := List.contains_iff_mem

theorem mem_foldl_insert {names : List String} {set : NameSet} {x : String} :
    x ∈ names.foldl insert set ↔ x ∈ names ∨ x ∈ set := by
  induction names generalizing set with
  | nil => simp
  | cons n rest ih => rw [List.foldl_cons, ih, mem_insert, List.mem_cons, or_left_comm, or_assoc]

@[simp] theorem mem_ofList {names : List String} {x : String} : x ∈ ofList names ↔ x ∈ names :=
  mem_foldl_insert.trans ⟨fun h => h.resolve_right (not_mem_empty x), .inl⟩

/-- A name after all others is put at the end. -/
theorem place_of_lt {name : String} {names : List String} (h : ∀ n ∈ names, n < name) :
    place name names = names ++ [name] := by
  induction names with
  | nil => rfl
  | cons n rest ih =>
    have hlt := h n List.mem_cons_self
    rw [place, if_neg (String.lt_asymm hlt), if_neg (String.ne_of_lt hlt).symm,
      ih fun m hm => h m (List.mem_cons_of_mem n hm)]
    rfl

/-- Ascending names are inserted in order. -/
theorem names_foldl_insert {set : NameSet} {names : List String}
    (h : (set.names ++ names).Pairwise (· < ·)) :
    (names.foldl insert set).names = set.names ++ names := by
  induction names generalizing set with
  | nil => simp
  | cons n rest ih =>
    have hinsert : (set.insert n).names = set.names ++ [n] :=
      place_of_lt fun m hm => (List.pairwise_append.mp h).2.2 m hm n List.mem_cons_self
    rw [List.append_cons, ← hinsert] at h ⊢
    exact ih h

/-- The set of the names of a set is the set. -/
theorem ofList_names (set : NameSet) : ofList set.names = set := by
  have hnames : (ofList set.names).names = [] ++ set.names :=
    names_foldl_insert (set.sorted : (empty.names ++ set.names).Pairwise (· < ·))
  generalize ofList set.names = other at hnames ⊢
  cases other
  cases set
  cases hnames
  rfl

end NameSet

end Reachability
