import Mathlib.Data.List.Basic
import TreebankGrammar.Table

/-!
# Entries and values of tables

A key has the value that stands beside it in the list of entries, because no key stands twice.
Replacing all values keeps the keys, and a write changes a sum over the values by what it changes
at its own key.

Main results:

- Theorem `Table.get?_eq_some_iff`: the value of a key is the one in its entry.
- Theorem `Table.ext_get?`: keys in order and their values determine a table.
- Theorem `Table.mapAccum_eq_map`: new values do not depend on the state when it never changes.
- Theorem `Table.sum_upsert`: how a write changes a sum over the values.
-/

namespace TreebankGrammar

variable {κ ν μ σ : Type}

/-! ## Lists of entries -/

namespace Entries

section Keyed

variable [DecidableEq κ]

/-- The value of a key stands in an entry. -/
theorem mem_of_get?_eq_some {key : κ} {value : ν} {entries : List (κ × ν)}
    (h : get? key entries = some value) : (key, value) ∈ entries := by
  induction entries with
  | nil => cases h
  | cons entry rest ih =>
    rcases entry with ⟨other, old⟩
    rw [get?] at h
    split at h
    · rename_i heq
      rw [Option.some.injEq] at h
      rw [heq, h]
      exact List.mem_cons_self
    · exact List.mem_cons_of_mem _ (ih h)

/-- A key that stands in no entry has no value. -/
theorem get?_eq_none {key : κ} {entries : List (κ × ν)} (h : key ∉ entries.map Prod.fst) :
    get? key entries = none := by
  cases hget : get? key entries with
  | none => rfl
  | some value => exact absurd (List.mem_map_of_mem (mem_of_get?_eq_some hget)) h

/-- The value in the entry of a key is the value of the key if no key stands twice. -/
theorem get?_eq_some_of_mem {key : κ} {value : ν} {entries : List (κ × ν)}
    (hnodup : (entries.map Prod.fst).Nodup) (h : (key, value) ∈ entries) :
    get? key entries = some value := by
  induction entries with
  | nil => cases h
  | cons entry rest ih =>
    rcases entry with ⟨other, old⟩
    rw [List.map_cons, List.nodup_cons] at hnodup
    rw [get?]
    rcases List.mem_cons.1 h with h | h
    · rcases Prod.mk.inj h with ⟨rfl, rfl⟩
      rw [if_pos rfl]
    · have hne : other ≠ key := by
        rintro rfl
        exact hnodup.1 (List.mem_map.2 ⟨(other, value), h, rfl⟩)
      rw [if_neg hne]
      exact ih hnodup.2 h

/-- A write changes a sum over the values by what it changes at its key. -/
theorem sum_upsert (f : ν → Int) (key : κ) (write : Option ν → ν)
    (entries : List (κ × ν)) :
    ((upsert key write entries).map fun entry => f entry.2).foldr (· + ·) 0 =
      (entries.map fun entry => f entry.2).foldr (· + ·) 0 +
        (f (write (get? key entries)) - ((get? key entries).map f).getD 0) := by
  induction entries with
  | nil => simp [upsert, get?]
  | cons entry rest ih =>
    rcases entry with ⟨other, old⟩
    rw [upsert, get?]
    split
    · simp only [List.map_cons, List.foldr_cons, Option.map_some, Option.getD_some]
      omega
    · simp only [List.map_cons, List.foldr_cons, ih]
      omega

/-- The value of a key after all values have been replaced. -/
theorem get?_map (f : κ → ν → μ) (key : κ) (entries : List (κ × ν)) :
    get? key (entries.map fun entry => (entry.1, f entry.1 entry.2)) =
      (get? key entries).map (f key) := by
  induction entries with
  | nil => rfl
  | cons entry rest ih =>
    rcases entry with ⟨other, old⟩
    rw [List.map_cons, get?, get?, ih]
    split
    · rename_i heq
      rw [heq, Option.map_some]
    · rfl

end Keyed

/-- When no entry changes the state, each value is replaced on its own. -/
theorem mapAccum_eq_map {f : σ → κ → ν → σ × μ} {state : σ} {entries : List (κ × ν)}
    (h : ∀ entry ∈ entries, (f state entry.1 entry.2).1 = state) :
    mapAccum f state entries =
      (state, entries.map fun entry => (entry.1, (f state entry.1 entry.2).2)) := by
  induction entries with
  | nil => rfl
  | cons entry rest ih =>
    rcases entry with ⟨key, value⟩
    have hfirst : (f state key value).1 = state := h (key, value) List.mem_cons_self
    have hrest := ih fun entry hentry => h entry (List.mem_cons_of_mem _ hentry)
    simp [mapAccum, hfirst, hrest]

/-- When no entry changes the state or its value, the entries stay as they are. -/
theorem mapAccum_eq_self {f : σ → κ → ν → σ × ν} {state : σ} {entries : List (κ × ν)}
    (h : ∀ entry ∈ entries, f state entry.1 entry.2 = (state, entry.2)) :
    mapAccum f state entries = (state, entries) := by
  have hgoes : ∀ entry ∈ entries, (f state entry.1 entry.2).1 = state := by
    intro entry hentry
    rw [h entry hentry]
  rw [mapAccum_eq_map hgoes]
  refine congrArg (Prod.mk state) ?_
  calc entries.map (fun entry => (entry.1, (f state entry.1 entry.2).2)) = entries.map id :=
        List.map_congr_left fun entry hentry =>
          congrArg (fun result => (entry.1, result.2)) (h entry hentry)
    _ = entries := List.map_id _

/-- What is read off the values does not change if no step changes it. -/
theorem map_mapAccum {τ : Type} {f : σ → κ → ν → σ × μ} {read : ν → τ} {read' : μ → τ}
    (h : ∀ state key value, read' (f state key value).2 = read value) (state : σ)
    (entries : List (κ × ν)) :
    (mapAccum f state entries).2.map (fun entry => (entry.1, read' entry.2)) =
      entries.map fun entry => (entry.1, read entry.2) := by
  induction entries generalizing state with
  | nil => rfl
  | cons entry rest ih =>
    rcases entry with ⟨key, value⟩
    rw [mapAccum, List.map_cons, List.map_cons, ih, h]

end Entries

/-! ## Tables -/

namespace Table

/-- A table is determined by its entries. -/
theorem ext_entries {a b : Table κ ν} (h : a.entries = b.entries) : a = b := by
  cases a
  cases b
  cases h
  rfl

/-- When no entry changes the state, each value is replaced on its own. -/
theorem mapAccum_eq_map {f : σ → κ → ν → σ × μ} {state : σ} {t : Table κ ν}
    (h : ∀ entry ∈ t.entries, (f state entry.1 entry.2).1 = state) :
    t.mapAccum f state = (state, t.map fun key value => (f state key value).2) := by
  have hentries := Entries.mapAccum_eq_map h
  have hstate : (Entries.mapAccum f state t.entries).1 = state := by rw [hentries]
  have hvalues : (Entries.mapAccum f state t.entries).2 =
      t.entries.map fun entry => (entry.1, (f state entry.1 entry.2).2) := by rw [hentries]
  exact Prod.ext hstate (ext_entries hvalues)

/-- What is read off the values does not change if no step changes it. -/
theorem map_mapAccum {τ : Type} {f : σ → κ → ν → σ × μ} {read : ν → τ} {read' : μ → τ}
    (h : ∀ state key value, read' (f state key value).2 = read value) (state : σ) (t : Table κ ν) :
    ((t.mapAccum f state).2.map fun _ => read') = t.map fun _ => read :=
  ext_entries (Entries.map_mapAccum h state t.entries)

/-- Only the entries matter when all values are replaced. -/
theorem map_congr {f f' : κ → ν → μ} {t : Table κ ν}
    (h : ∀ entry ∈ t.entries, f entry.1 entry.2 = f' entry.1 entry.2) : t.map f = t.map f' := by
  apply ext_entries
  apply List.map_congr_left
  intro entry hentry
  exact congrArg (Prod.mk entry.1) (h entry hentry)

/-- A table stays as it is when no value is changed. -/
theorem map_eq_self {f : κ → ν → ν} {t : Table κ ν}
    (h : ∀ entry ∈ t.entries, f entry.1 entry.2 = entry.2) : t.map f = t := by
  apply ext_entries
  calc t.entries.map (fun entry => (entry.1, f entry.1 entry.2)) = t.entries.map id :=
        List.map_congr_left fun entry hentry => congrArg (Prod.mk entry.1) (h entry hentry)
    _ = t.entries := List.map_id _

theorem values_map (f : κ → ν → μ) (t : Table κ ν) :
    (t.map f).values = t.entries.map fun entry => f entry.1 entry.2 := by
  simp [values, map]

variable [DecidableEq κ]

/-- The value of a key is the one in its entry. -/
theorem get?_eq_some_iff (t : Table κ ν) (key : κ) (value : ν) :
    t.get? key = some value ↔ (key, value) ∈ t.entries := by
  constructor
  · exact Entries.mem_of_get?_eq_some
  · exact Entries.get?_eq_some_of_mem t.nodup_keys

/-- The keys are those that have a value. -/
theorem mem_keys_iff (t : Table κ ν) (key : κ) :
    key ∈ t.keys ↔ ∃ value, t.get? key = some value := by
  constructor
  · intro h
    rcases List.mem_map.1 h with ⟨⟨_, value⟩, hentry, rfl⟩
    exact ⟨value, (t.get?_eq_some_iff _ value).2 hentry⟩
  · rintro ⟨value, h⟩
    exact List.mem_map_of_mem ((t.get?_eq_some_iff key value).1 h)

/-- A key that is written has the new value, and all others keep theirs. -/
theorem get?_insert (t : Table κ ν) (key key' : κ) (value : ν) :
    (t.insert key value).get? key' = if key' = key then some value else t.get? key' := by
  rw [insert, get?_upsert]

theorem get?_insert_eq_some_iff {t : Table κ ν} {key key' : κ} {value value' : ν} :
    (t.insert key value).get? key' = some value' ↔
      (key' = key ∧ value = value') ∨ (key' ≠ key ∧ t.get? key' = some value') := by
  rw [get?_insert]
  split
  · rename_i h
    simp [h]
  · rename_i h
    simp [h]

/-- A key that has not been written has no value. -/
theorem get?_eq_none {t : Table κ ν} {key : κ} (h : key ∉ t.keys) : t.get? key = none :=
  Entries.get?_eq_none h

/-- The entries are the keys in order, each with its value. -/
theorem entries_eq (t : Table κ ν) :
    t.entries = t.keys.filterMap fun key => (t.get? key).map (Prod.mk key) := by
  have hentries : t.entries.filterMap (fun entry => (t.get? entry.1).map (Prod.mk entry.1)) =
      t.entries.filterMap some := by
    refine List.filterMap_congr fun entry hentry => ?_
    rw [(t.get?_eq_some_iff entry.1 entry.2).2 hentry]
    rfl
  rw [keys, List.filterMap_map]
  exact (hentries.trans List.filterMap_some).symm

/-- A list is the list of entries if it has the keys in order, each with its value. -/
theorem entries_eq_of_get? {t : Table κ ν} {entries : List (κ × ν)}
    (hkeys : t.keys = entries.map Prod.fst)
    (hget : ∀ entry ∈ entries, t.get? entry.1 = some entry.2) : t.entries = entries := by
  have hentries : entries.filterMap (fun entry => (t.get? entry.1).map (Prod.mk entry.1)) =
      entries.filterMap some := by
    refine List.filterMap_congr fun entry hentry => ?_
    rw [hget entry hentry]
    rfl
  rw [t.entries_eq, hkeys, List.filterMap_map]
  exact hentries.trans List.filterMap_some

/-- The keys in order and their values determine a table. -/
theorem ext_get? {a b : Table κ ν} (hkeys : a.keys = b.keys) (hget : ∀ key, a.get? key = b.get? key) :
    a = b := by
  apply ext_entries
  rw [a.entries_eq, b.entries_eq, hkeys]
  simp only [hget]

/-- The entries of a table whose values are given by a function of the keys. -/
theorem entries_eq_map {t : Table κ ν} {f : κ → ν} (h : ∀ key ∈ t.keys, t.get? key = some (f key)) :
    t.entries = t.keys.map fun key => (key, f key) := by
  refine entries_eq_of_get? ?_ ?_
  · rw [List.map_map]
    exact (List.map_id _).symm
  · rw [List.forall_mem_map]
    exact h

@[simp]
theorem get?_map (f : κ → ν → μ) (t : Table κ ν) (key : κ) :
    (t.map f).get? key = (t.get? key).map (f key) :=
  Entries.get?_map f key t.entries

/-- A write changes a sum over the values by what it changes at its key. -/
theorem sum_upsert (f : ν → Int) (t : Table κ ν) (key : κ)
    (write : Option ν → ν) :
    ((t.upsert key write).values.map f).foldr (· + ·) 0 =
      (t.values.map f).foldr (· + ·) 0 +
        (f (write (t.get? key)) - ((t.get? key).map f).getD 0) := by
  have h := Entries.sum_upsert f key write t.entries
  simpa [values, upsert, get?, Function.comp_def] using h

end Table
end TreebankGrammar
