import PhpImports.Import.FileImports
import Mathlib.Data.List.Nodup

/-!
# Where the entries of an alias table come from

A statement enters the imports that it keeps, in order, and a file enters those of all its
statements; the last one of an alias decides (`name?_ofPieces`). What holds of a draft after every
piece holds of the draft that a statement ends with (`Draft.readAll_induction`).
-/

namespace PhpImports

theorem Draft.readAll_induction {P : Draft → Prop} {ps : List Piece}
    (step : ∀ d, ∀ p ∈ ps, P d → P (d.next p)) (d : Draft) (h : P d) : P (d.readAll ps).1 := by
  induction ps generalizing d with
  | nil => exact h
  | cons p ps ih =>
    obtain ⟨hp, hps⟩ := List.forall_mem_cons.1 fun q hq d => step d q hq
    rw [Draft.readAll]
    split
    · exact hp d h
    · exact ih (fun d q hq => hps q hq d) (d.next p) (hp d h)

namespace AliasTable

theorem mem_entries_iff {t : AliasTable} {key name : Text} :
    (key, name) ∈ t.entries ↔ t.name? key = some name := by
  obtain ⟨es, hes⟩ := t
  simp only [name?]
  induction es with
  | nil => simp
  | cons e es ih =>
    rw [List.map_cons, List.nodup_cons] at hes
    have ih := ih hes.2
    rw [List.lookup_cons]
    cases hk : key == e.1 with
    | true =>
      obtain rfl : key = e.1 := eq_of_beq hk
      have hnot : (e.1, name) ∉ es := fun hm => hes.1 (List.mem_map.2 ⟨_, hm, rfl⟩)
      simp only [List.mem_cons, hnot, or_false, Option.some.injEq]
      exact ⟨fun h => congrArg Prod.snd h.symm, fun h => by rw [← h]⟩
    | false =>
      have hne : (key, name) ≠ e := fun h => by rw [← h] at hk; simp at hk
      simp only [List.mem_cons, hne, false_or, ih]

theorem name?_empty (key : Text) : empty.name? key = none := rfl

/-- Later entries go before earlier ones, and both before what the table held. -/
theorem name?_foldl_insert (es : List (Text × Text)) (t : AliasTable) (key : Text) :
    (es.foldl (fun t e => t.insert e.1 e.2) t).name? key =
      (es.reverse.lookup key).or (t.name? key) := by
  induction es generalizing t with
  | nil => rfl
  | cons e es ih =>
    rw [List.foldl_cons, ih, name?_insert, List.reverse_cons, List.lookup_append,
      List.lookup_singleton, Option.or_assoc]
    by_cases h : key = e.1
    · simp [h]
    · simp [h]

theorem lookup_reverse (u : AliasTable) (key : Text) :
    u.entries.reverse.lookup key = u.name? key := by
  let r : AliasTable := ⟨u.entries.reverse, by
    rw [List.map_reverse]
    exact List.nodup_reverse.2 u.nodup_aliases⟩
  have h : ∀ name, r.name? key = some name ↔ u.name? key = some name := fun name => by
    rw [← mem_entries_iff, ← mem_entries_iff]
    exact List.mem_reverse
  exact Option.ext h

theorem name?_overwrite (t u : AliasTable) (key : Text) :
    (t.overwrite u).name? key = (u.name? key).or (t.name? key) := by
  rw [overwrite, name?_foldl_insert, lookup_reverse]

theorem aliases_foldl_insert (es : List (Text × Text)) (hes : (es.map (·.1)).Nodup)
    (t : AliasTable) : (es.foldl (fun t e => t.insert e.1 e.2) t).aliases =
      t.aliases ++ (es.map (·.1)).filter (· ∉ t.aliases) := by
  induction es generalizing t with
  | nil => simp
  | cons e es ih =>
    rw [List.map_cons, List.nodup_cons] at hes
    rw [List.foldl_cons, ih hes.2, aliases_insert, List.map_cons, List.filter_cons]
    by_cases h : e.1 ∈ t.aliases
    · simp [h]
    · have hfilter : (es.map (·.1)).filter (· ∉ t.aliases ++ [e.1]) =
          (es.map (·.1)).filter (· ∉ t.aliases) := by
        apply List.filter_congr
        intro key hkey
        have hne : key ≠ e.1 := fun heq => hes.1 (heq ▸ hkey)
        simp [hne]
      rw [if_neg h, hfilter]
      simp [h]

theorem aliases_overwrite (t u : AliasTable) :
    (t.overwrite u).aliases = t.aliases ++ u.aliases.filter (· ∉ t.aliases) :=
  aliases_foldl_insert u.entries u.nodup_aliases t

theorem entries_eq_map (t : AliasTable) :
    t.entries = t.aliases.map fun key => (key, (t.name? key).getD []) := by
  rw [aliases, List.map_map]
  conv_lhs => rw [← List.map_id t.entries]
  apply List.map_congr_left
  intro e he
  have hname : t.name? e.1 = some e.2 := mem_entries_iff.1 he
  rw [Function.comp_apply, hname]
  rfl

/-- A table is given by its aliases in order and their names. -/
theorem ext_of_name? {t u : AliasTable} (haliases : t.aliases = u.aliases)
    (hname : ∀ key, t.name? key = u.name? key) : t = u := by
  have hentries : t.entries = u.entries := by
    rw [entries_eq_map t, entries_eq_map u, haliases]
    simp only [hname]
  cases t
  cases u
  cases hentries
  rfl

/-- Inserting into a table that is laid over another, or into what comes of it. -/
theorem overwrite_insert (t u : AliasTable) (key name : Text) :
    t.overwrite (u.insert key name) = (t.overwrite u).insert key name := by
  apply ext_of_name?
  · rw [aliases_overwrite, aliases_insert, aliases_insert, aliases_overwrite]
    by_cases hu : key ∈ u.aliases
    · by_cases ht : key ∈ t.aliases
      · simp [hu, ht]
      · simp [hu, ht]
    · by_cases ht : key ∈ t.aliases
      · simp [hu, ht]
      · simp [hu, ht]
  · intro other
    rw [name?_overwrite, name?_insert, name?_insert, name?_overwrite]
    by_cases h : other = key
    · rw [if_pos h, if_pos h]
      rfl
    · rw [if_neg h, if_neg h]

theorem overwrite_foldl_insert (es : List (Text × Text)) (t u : AliasTable) :
    t.overwrite (es.foldl (fun u e => u.insert e.1 e.2) u) =
      es.foldl (fun u e => u.insert e.1 e.2) (t.overwrite u) := by
  induction es generalizing u with
  | nil => rfl
  | cons e es ih => rw [List.foldl_cons, ih, overwrite_insert, List.foldl_cons]

end AliasTable

namespace ImportClause

/-- The import enters the alias table. -/
def IsKept (i : ImportClause) : Prop :=
  i.name.getLast? ≠ some separator ∧ i.localName ≠ []

instance (i : ImportClause) : Decidable i.IsKept :=
  inferInstanceAs (Decidable (_ ∧ _))

def entry (i : ImportClause) : Text × Text :=
  (i.localName, i.name)

end ImportClause

/-- The entries of the imports that are kept. -/
def keptEntries (is : List ImportClause) : List (Text × Text) :=
  (is.filter (·.IsKept)).map (·.entry)

theorem keptEntries_append (is js : List ImportClause) :
    keptEntries (is ++ js) = keptEntries is ++ keptEntries js := by
  rw [keptEntries, List.filter_append, List.map_append]
  rfl

theorem Statement.table_enter (s : Statement) (i : ImportClause) :
    (s.enter i).table = if i.IsKept then s.table.insert i.localName i.name else s.table := by
  rw [enter]
  by_cases hlast : i.name.getLast? = some separator
  · rw [if_pos hlast, if_neg (fun h : i.IsKept => h.1 hlast)]
  · rw [if_neg hlast]
    by_cases hkey : i.localName = []
    · rw [if_pos hkey, if_neg (fun h : i.IsKept => h.2 hkey)]
    · rw [if_neg hkey, if_pos (show i.IsKept from ⟨hlast, hkey⟩)]

theorem Statement.table_foldl_enter (is : List ImportClause) (s : Statement) :
    (is.foldl enter s).table = (keptEntries is).foldl (fun t e => t.insert e.1 e.2) s.table := by
  induction is generalizing s with
  | nil => rfl
  | cons i is ih =>
    rw [List.foldl_cons, ih, table_enter]
    by_cases h : i.IsKept
    · rw [if_pos h]
      simp [keptEntries, h, ImportClause.entry]
    · rw [if_neg h]
      simp [keptEntries, h]

theorem Statement.table_ofDraft (d : Draft) (terminated : Bool) (fileEnd : Span) :
    (ofDraft d terminated fileEnd).table =
      (keptEntries d.imports).foldl (fun t e => t.insert e.1 e.2) .empty := by
  rw [ofDraft, table_foldl_enter]

/-- The imports that the statements of a file read, in order. -/
def importClauses : List Piece → List ImportClause
  | [] => []
  | p :: ps =>
    if p.kind = .kwUse then (({} : Draft).readAll ps).1.imports ++ importClauses ps
    else importClauses ps

theorem Statement.table_read (ps : List Piece) :
    (read ps).table = (keptEntries (({} : Draft).readAll ps).1.imports).foldl
      (fun t e => t.insert e.1 e.2) .empty :=
  table_ofDraft _ _ _

theorem Statement.name?_read (ps : List Piece) (key : Text) :
    (read ps).table.name? key =
      (keptEntries (({} : Draft).readAll ps).1.imports).reverse.lookup key := by
  rw [table_read, AliasTable.name?_foldl_insert, AliasTable.name?_empty, Option.or_none]

theorem name?_foldl_overwrite (ps : List Piece) (t : AliasTable) (key : Text) :
    ((Statement.readAll ps).foldl (fun t s => t.overwrite s.table) t).name? key =
      ((keptEntries (importClauses ps)).reverse.lookup key).or (t.name? key) := by
  induction ps generalizing t with
  | nil => rfl
  | cons p ps ih =>
    rw [Statement.readAll, importClauses]
    split
    · rw [List.foldl_cons, ih, AliasTable.name?_overwrite, Statement.name?_read, keptEntries_append,
        List.reverse_append, List.lookup_append, Option.or_assoc]
    · exact ih t

/-- The last import of an alias that is kept decides what the alias stands for. -/
theorem name?_ofPieces (ps : List Piece) (key : Text) :
    (FileImports.ofPieces ps).table.name? key =
      (keptEntries (importClauses ps)).reverse.lookup key := by
  have h := name?_foldl_overwrite ps .empty key
  rwa [AliasTable.name?_empty, Option.or_none] at h

/-- `i` is kept, and no import that is kept after it goes by its alias. -/
def ImportClause.DecidesIn (is : List ImportClause) (i : ImportClause) : Prop :=
  i.IsKept ∧ ∃ before after, is = before ++ i :: after ∧
    ∀ j ∈ after, j.IsKept → j.localName ≠ i.localName

theorem lookup_reverse_keptEntries_cons (i : ImportClause) (is : List ImportClause) (key : Text) :
    (keptEntries (i :: is)).reverse.lookup key =
      ((keptEntries is).reverse.lookup key).or
        (if i.IsKept ∧ i.localName = key then some i.name else none) := by
  by_cases hkept : i.IsKept
  · have hcons : keptEntries (i :: is) = (i.localName, i.name) :: keptEntries is := by
      simp [keptEntries, hkept, ImportClause.entry]
    rw [hcons, List.reverse_cons, List.lookup_append, List.lookup_singleton]
    by_cases hkey : i.localName = key
    · simp [hkept, hkey]
    · simp [hkey, Ne.symm hkey]
  · have hcons : keptEntries (i :: is) = keptEntries is := by simp [keptEntries, hkept]
    rw [hcons, if_neg (fun h => hkept h.1), Option.or_none]

theorem lookup_keptEntries_eq_none {is : List ImportClause} {key : Text} :
    (keptEntries is).reverse.lookup key = none ↔ ∀ i ∈ is, i.IsKept → i.localName ≠ key := by
  induction is with
  | nil => simp [keptEntries]
  | cons i is ih =>
    rw [lookup_reverse_keptEntries_cons, Option.or_eq_none_iff, ih, List.forall_mem_cons]
    simp only [ite_eq_right_iff, reduceCtorEq, imp_false, not_and, and_comm]

theorem lookup_keptEntries_eq_some {is : List ImportClause} {key name : Text} :
    (keptEntries is).reverse.lookup key = some name ↔
      ∃ i : ImportClause, i.DecidesIn is ∧ i.entry = (key, name) := by
  induction is with
  | nil => simp [keptEntries, ImportClause.DecidesIn]
  | cons i is ih =>
    rw [lookup_reverse_keptEntries_cons, Option.or_eq_some_iff, ih, lookup_keptEntries_eq_none]
    constructor
    · rintro (⟨j, ⟨hkept, before, after, rfl, hafter⟩, hentry⟩ | ⟨hnone, hi⟩)
      · exact ⟨j, ⟨hkept, i :: before, after, rfl, hafter⟩, hentry⟩
      · split at hi
        · next h =>
          cases hi
          exact ⟨i, ⟨h.1, [], is, rfl, fun j hj hk => h.2 ▸ hnone j hj hk⟩, by rw [← h.2]; rfl⟩
        · cases hi
    · rintro ⟨j, ⟨hkept, before, after, hsplit, hafter⟩, hentry⟩
      obtain ⟨rfl, rfl⟩ : j.localName = key ∧ j.name = name := by
        rw [ImportClause.entry, Prod.mk.injEq] at hentry
        exact hentry
      cases before with
      | nil =>
        obtain ⟨rfl, rfl⟩ : i = j ∧ is = after := by simpa using hsplit
        exact Or.inr ⟨hafter, if_pos ⟨hkept, rfl⟩⟩
      | cons b before =>
        obtain ⟨rfl, rfl⟩ : i = b ∧ is = before ++ j :: after := by simpa using hsplit
        exact Or.inl ⟨j, ⟨hkept, before, after, rfl, hafter⟩, rfl⟩

/-- The entries of a file are those of the imports that decide an alias. -/
theorem mem_entries_ofPieces {ps : List Piece} {e : Text × Text} :
    e ∈ (FileImports.ofPieces ps).table.entries ↔
      ∃ i : ImportClause, i.DecidesIn (importClauses ps) ∧ i.entry = e := by
  obtain ⟨key, name⟩ := e
  rw [AliasTable.mem_entries_iff, name?_ofPieces, lookup_keptEntries_eq_some]

theorem ImportClause.DecidesIn.mem {is : List ImportClause} {i : ImportClause}
    (h : i.DecidesIn is) : i ∈ is := by
  obtain ⟨-, before, after, rfl, -⟩ := h
  simp

end PhpImports
