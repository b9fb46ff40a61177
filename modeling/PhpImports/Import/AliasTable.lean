import PhpImports.Text.Basic

/-!
# Alias tables

An alias table gives each of its aliases one name. It keeps the order in which the aliases were
first inserted; inserting an alias again replaces the name and not the place (`aliases_insert`,
`name?_insert`).
-/

namespace PhpImports

namespace AliasTable

/-- The entries with the one of the alias `key` replaced, or with a new one at the end. -/
def put (key name : Text) : List (Text × Text) → List (Text × Text)
  | [] => [(key, name)]
  | e :: es => if e.1 = key then (key, name) :: es else e :: put key name es

theorem map_put (key name : Text) (es : List (Text × Text)) :
    (put key name es).map (·.1) =
      if key ∈ es.map (·.1) then es.map (·.1) else es.map (·.1) ++ [key] := by
  induction es with
  | nil => rfl
  | cons e es ih =>
    by_cases h : e.1 = key
    · simp [put, h]
    · rw [put, if_neg h, List.map_cons, ih, List.map_cons]
      by_cases hm : key ∈ es.map (·.1)
      · rw [if_pos hm, if_pos (List.mem_cons_of_mem _ hm)]
      · rw [if_neg hm, if_neg (by simp [Ne.symm h, hm])]
        rfl

theorem nodup_put (key name : Text) {es : List (Text × Text)} (h : (es.map (·.1)).Nodup) :
    ((put key name es).map (·.1)).Nodup := by
  rw [map_put]
  split
  · exact h
  · next hm =>
    rw [List.nodup_append]
    refine ⟨h, by simp, ?_⟩
    rintro a ha b hb rfl
    rw [List.mem_singleton] at hb
    exact hm (hb ▸ ha)

end AliasTable

structure AliasTable where
  entries : List (Text × Text) := []
  nodup_aliases : (entries.map (·.1)).Nodup := by decide
deriving DecidableEq

namespace AliasTable

def empty : AliasTable := {}

instance : Inhabited AliasTable := ⟨empty⟩

def aliases (t : AliasTable) : List Text :=
  t.entries.map (·.1)

def contains (t : AliasTable) (key : Text) : Bool :=
  t.entries.any (·.1 = key)

def name? (t : AliasTable) (key : Text) : Option Text :=
  t.entries.lookup key

def insert (t : AliasTable) (key name : Text) : AliasTable :=
  ⟨put key name t.entries, nodup_put key name t.nodup_aliases⟩

/-- Every entry of the second table inserted into the first. -/
def overwrite (t u : AliasTable) : AliasTable :=
  u.entries.foldl (fun t e => t.insert e.1 e.2) t

/-- The entries by key, in the order of code points. -/
def sorted (t : AliasTable) : List (Text × Text) :=
  t.entries.mergeSort fun a b => a.1.le b.1

theorem contains_iff {t : AliasTable} {key : Text} :
    t.contains key = true ↔ key ∈ t.aliases := by
  simp [contains, aliases]

theorem aliases_insert (t : AliasTable) (key name : Text) :
    (t.insert key name).aliases =
      if key ∈ t.aliases then t.aliases else t.aliases ++ [key] :=
  map_put key name t.entries

theorem lookup_put (key name other : Text) (es : List (Text × Text)) :
    (put key name es).lookup other = if other = key then some name else es.lookup other := by
  have lookup_cons : ∀ (a n : Text) (l : List (Text × Text)),
      ((a, n) :: l).lookup other = if other = a then some n else l.lookup other := by
    intro a n l
    by_cases h : other = a
    · simp [h]
    · rw [List.lookup_cons, beq_false_of_ne h, if_neg h]
  induction es with
  | nil => exact lookup_cons key name []
  | cons e es ih =>
    obtain ⟨a, n⟩ := e
    by_cases ha : a = key
    · rw [put, if_pos ha, lookup_cons, lookup_cons, ha]
      by_cases h : other = key
      · rw [if_pos h, if_pos h]
      · rw [if_neg h, if_neg h, if_neg h]
    · rw [put, if_neg ha, lookup_cons, lookup_cons, ih]
      by_cases h : other = key
      · rw [if_neg (fun h' => ha (h'.symm.trans h)), if_pos h, if_pos h]
      · rw [if_neg h, if_neg h]

theorem name?_insert (t : AliasTable) (key name other : Text) :
    (t.insert key name).name? other = if other = key then some name else t.name? other :=
  lookup_put key name other t.entries

end AliasTable
end PhpImports
