/-!
# Tables in order of insertion

A table holds one value for each of its keys and lists the keys in the order in which they
were first written.  Writing to a key that is there keeps its place.

Main definitions:

- `Table`: the entries in order, no key twice.
- `Table.upsert`: writes the value of one key, given its old value if it has one.
- `Table.map` and `Table.mapAccum`: new values for all keys, in order.

Main results:

- Theorem `keys_upsert`: a write adds at most one key, at the end.
- Theorem `get?_upsert`: a write changes the value of its key only.
-/

namespace TreebankGrammar

/-! ## Lists of entries -/

namespace Entries

variable {κ ν σ μ : Type}

section Keyed

variable [DecidableEq κ]

/-- The value of a key in a list of entries. -/
def get? (key : κ) : List (κ × ν) → Option ν
  | [] => none
  | (other, value) :: rest => if other = key then some value else get? key rest

/-- Writes the value of a key into a list of entries, at the end when the key is new. -/
def upsert (key : κ) (write : Option ν → ν) : List (κ × ν) → List (κ × ν)
  | [] => [(key, write none)]
  | (other, value) :: rest =>
    if other = key then (other, write (some value)) :: rest
    else (other, value) :: upsert key write rest

/-- A write keeps the keys in place and appends the key when it is new. -/
theorem keys_upsert (key : κ) (write : Option ν → ν) (entries : List (κ × ν)) :
    (upsert key write entries).map Prod.fst =
      if key ∈ entries.map Prod.fst then entries.map Prod.fst
      else entries.map Prod.fst ++ [key] := by
  induction entries with
  | nil => rfl
  | cons entry rest ih =>
    obtain ⟨other, value⟩ := entry
    by_cases h : other = key
    · simp [upsert, h]
    · have h' : ¬ key = other := fun e => h e.symm
      by_cases hm : key ∈ rest.map Prod.fst
      · simp [upsert, h, hm, ih]
      · simp [upsert, h, h', hm, ih]

/-- No key stands twice after a write when none did before. -/
theorem nodup_keys_upsert (key : κ) (write : Option ν → ν) {entries : List (κ × ν)}
    (h : (entries.map Prod.fst).Nodup) : ((upsert key write entries).map Prod.fst).Nodup := by
  rw [keys_upsert]
  split
  · exact h
  · rename_i hm
    exact List.nodup_append.2 ⟨h, by simp, by
      intro a ha b hb
      simp only [List.mem_singleton] at hb
      subst hb
      exact fun e => hm (e ▸ ha)⟩

/-- A write changes the value of its key only. -/
theorem get?_upsert (key key' : κ) (write : Option ν → ν) (entries : List (κ × ν)) :
    get? key' (upsert key write entries) =
      if key' = key then some (write (get? key entries)) else get? key' entries := by
  induction entries with
  | nil => simp [upsert, get?, eq_comm]
  | cons entry rest ih =>
    obtain ⟨other, value⟩ := entry
    by_cases h : other = key
    · subst h
      by_cases h' : other = key'
      · simp [upsert, get?, h']
      · simp [upsert, get?, h', Ne.symm h']
    · by_cases h' : other = key'
      · subst h'
        simp [upsert, get?, h]
      · simp [upsert, get?, h, h', ih]

end Keyed

/-- Replaces the values from the first to the last while a state is handed along. -/
def mapAccum (f : σ → κ → ν → σ × μ) (state : σ) : List (κ × ν) → σ × List (κ × μ)
  | [] => (state, [])
  | (key, value) :: rest =>
    let (next, value') := f state key value
    let (last, rest') := mapAccum f next rest
    (last, (key, value') :: rest')

/-- Replacing values keeps the keys and their order. -/
theorem keys_mapAccum (f : σ → κ → ν → σ × μ) (state : σ) (entries : List (κ × ν)) :
    (mapAccum f state entries).2.map Prod.fst = entries.map Prod.fst := by
  induction entries generalizing state with
  | nil => rfl
  | cons entry rest ih => simp [mapAccum, ih]

end Entries

/-! ## Tables -/

/-- One value for each key, the keys in the order in which they were first written. -/
structure Table (κ ν : Type) where
  entries : List (κ × ν) := []
  nodup_keys : (entries.map Prod.fst).Nodup := by simp

namespace Table

variable {κ ν μ σ : Type}

instance [DecidableEq κ] [DecidableEq ν] : DecidableEq (Table κ ν) := fun a b =>
  if h : a.entries = b.entries then
    isTrue (by cases a; cases b; simp_all)
  else isFalse fun e => h (e ▸ rfl)

/-- The table without entries. -/
def empty : Table κ ν :=
  {}

instance : Inhabited (Table κ ν) :=
  ⟨empty⟩

/-- The keys, in the order in which they were first written. -/
def keys (t : Table κ ν) : List κ :=
  t.entries.map Prod.fst

/-- The values, in the order of their keys. -/
def values (t : Table κ ν) : List ν :=
  t.entries.map Prod.snd

/-- The number of keys. -/
def size (t : Table κ ν) : Nat :=
  t.entries.length

/-- New values for all keys, from the first to the last, while a state is handed along. -/
def mapAccum (f : σ → κ → ν → σ × μ) (state : σ) (t : Table κ ν) : σ × Table κ μ :=
  let result := Entries.mapAccum f state t.entries
  (result.1,
    { entries := result.2
      nodup_keys := by rw [Entries.keys_mapAccum]; exact t.nodup_keys })

/-- New values for all keys. -/
def map (f : κ → ν → μ) (t : Table κ ν) : Table κ μ where
  entries := t.entries.map fun (key, value) => (key, f key value)
  nodup_keys := by
    have h : (t.entries.map fun (key, value) => (key, f key value)).map Prod.fst =
        t.entries.map Prod.fst := by simp
    rw [h]
    exact t.nodup_keys

@[simp]
theorem keys_empty : (empty : Table κ ν).keys = [] :=
  rfl

@[simp]
theorem keys_map (f : κ → ν → μ) (t : Table κ ν) : (t.map f).keys = t.keys := by
  simp [keys, map]

@[simp]
theorem keys_mapAccum (f : σ → κ → ν → σ × μ) (state : σ) (t : Table κ ν) :
    (t.mapAccum f state).2.keys = t.keys :=
  Entries.keys_mapAccum f state t.entries

variable [DecidableEq κ]

/-- The value of a key, if the key has been written. -/
def get? (t : Table κ ν) (key : κ) : Option ν :=
  Entries.get? key t.entries

/-- The value of a key, or the given one if the key has not been written. -/
def getD (t : Table κ ν) (key : κ) (fallback : ν) : ν :=
  (t.get? key).getD fallback

/-- Whether a key has been written. -/
def contains (t : Table κ ν) (key : κ) : Bool :=
  (t.get? key).isSome

/-- Writes the value of a key, given its old value if it has one. -/
def upsert (t : Table κ ν) (key : κ) (write : Option ν → ν) : Table κ ν where
  entries := Entries.upsert key write t.entries
  nodup_keys := Entries.nodup_keys_upsert key write t.nodup_keys

/-- Writes a value to a key, whatever was there. -/
def insert (t : Table κ ν) (key : κ) (value : ν) : Table κ ν :=
  t.upsert key fun _ => value

@[simp]
theorem get?_empty (key : κ) : (empty : Table κ ν).get? key = none :=
  rfl

/-- A write adds at most one key, at the end. -/
theorem keys_upsert (t : Table κ ν) (key : κ) (write : Option ν → ν) :
    (t.upsert key write).keys = if key ∈ t.keys then t.keys else t.keys ++ [key] :=
  Entries.keys_upsert key write t.entries

/-- A write changes the value of its key only. -/
theorem get?_upsert (t : Table κ ν) (key key' : κ) (write : Option ν → ν) :
    (t.upsert key write).get? key' =
      if key' = key then some (write (t.get? key)) else t.get? key' :=
  Entries.get?_upsert key key' write t.entries

end Table
end TreebankGrammar
