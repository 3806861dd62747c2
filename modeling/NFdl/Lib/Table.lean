import Mathlib.Data.List.AList
import Mathlib.Algebra.GroupWithZero.Nat

/-!
# Tables

A table is a finite map without an order of its own. An entry is changed in
place, and created from a default where there is none; a sweep changes the values
of all entries.
-/

/-- A finite map from keys to values of one type. -/
abbrev Table (κ β : Type*) := AList fun _ : κ => β

namespace Table

variable {κ β : Type*}

/-- Change the values of all entries. -/
def mapValues (f : β → β) (t : Table κ β) : Table κ β where
  entries := t.entries.map fun e => ⟨e.1, f e.2⟩
  nodupKeys := List.NodupKeys.map₂ (fun _ => f) t.entries t.nodupKeys

/-- The values of all entries. -/
def values (t : Table κ β) : List β := t.entries.map Sigma.snd

variable [DecidableEq κ]

/-- Change the entry of a key, from the default if there is none. -/
def update (t : Table κ β) (k : κ) (default : β) (f : β → β) : Table κ β :=
  AList.insert k (f ((t.lookup k).getD default)) t

@[simp] theorem lookup_mapValues (f : β → β) (t : Table κ β) (k : κ) :
    (t.mapValues f).lookup k = (t.lookup k).map f := by
  have h := List.dlookup_map₂ (l := t.entries) (f := fun _ => f) k
  exact h

@[simp] theorem lookup_update (t : Table κ β) (k : κ) (default : β) (f : β → β) :
    (t.update k default f).lookup k = some (f ((t.lookup k).getD default)) :=
  AList.lookup_insert t

theorem lookup_update_ne {t : Table κ β} {k k' : κ} (h : k' ≠ k) (default : β) (f : β → β) :
    (t.update k default f).lookup k' = t.lookup k' :=
  AList.lookup_insert_ne h

/-- What a table has after an insertion is new or was there. -/
theorem of_lookup_insert {t : Table κ β} {k k' : κ} {v v' : β}
    (h : (AList.insert k v t).lookup k' = some v') : k' = k ∧ v' = v ∨ t.lookup k' = some v' := by
  by_cases hkey : k' = k
  · subst hkey
    rw [AList.lookup_insert] at h
    exact .inl ⟨rfl, (Option.some.inj h).symm⟩
  · rw [AList.lookup_insert_ne hkey] at h
    exact .inr h

omit [DecidableEq κ] in
theorem length_entries (t : Table κ β) : t.entries.length = t.keys.length :=
  (List.length_map Sigma.fst).symm

/-- Writing an entry that is there leaves the size as it is. -/
theorem length_insert_of_some {t : Table κ β} {k : κ} {v v' : β} (h : t.lookup k = some v) :
    (AList.insert k v' t).entries.length = t.entries.length := by
  have hmem : k ∈ t.keys := AList.lookup_isSome.mp (Option.isSome_iff_exists.mpr ⟨v, h⟩)
  have hpos := List.length_pos_of_mem hmem
  rw [length_entries, length_entries, AList.keys_insert, List.length_cons, List.length_erase,
    if_pos hmem]
  omega

theorem length_insert_le (t : Table κ β) (k : κ) (v : β) :
    (AList.insert k v t).entries.length ≤ t.entries.length + 1 := by
  rw [length_entries, length_entries, AList.keys_insert, List.length_cons]
  exact Nat.succ_le_succ (List.erase_sublist.length_le)

/-- An insertion never makes a table smaller. -/
theorem length_le_insert (t : Table κ β) (k : κ) (v : β) :
    t.entries.length ≤ (AList.insert k v t).entries.length := by
  rw [length_entries, length_entries, AList.keys_insert, List.length_cons, List.length_erase]
  split <;> omega

/-- An erased entry is missing from a sum over the values. -/
theorem sum_kerase (f : β → ℕ) (k : κ) (entries : List (Sigma fun _ : κ => β)) :
    ((List.kerase k entries).map fun e => f e.2).sum + ((List.dlookup k entries).map f).getD 0 =
      (entries.map fun e => f e.2).sum := by
  induction entries with
  | nil => rfl
  | cons e rest ih =>
      obtain ⟨k', v⟩ := e
      by_cases hkey : k = k'
      · subst hkey
        have hlookup : List.dlookup k (⟨k, v⟩ :: rest : List (Sigma fun _ : κ => β)) = some v :=
          List.dlookup_cons_eq rest k v
        have herase : List.kerase k (⟨k, v⟩ :: rest : List (Sigma fun _ : κ => β)) = rest :=
          List.kerase_cons_eq rfl
        rw [hlookup, herase, List.map_cons, List.sum_cons]
        exact Nat.add_comm _ _
      · have hlookup : List.dlookup k (⟨k', v⟩ :: rest : List (Sigma fun _ : κ => β)) =
            List.dlookup k rest := List.dlookup_cons_ne rest _ hkey
        have herase : List.kerase k (⟨k', v⟩ :: rest : List (Sigma fun _ : κ => β)) =
            ⟨k', v⟩ :: List.kerase k rest := List.kerase_cons_ne hkey
        rw [hlookup, herase, List.map_cons, List.map_cons, List.sum_cons, List.sum_cons,
          Nat.add_assoc, ih]

/-- A written entry takes the place of the one that was there. -/
theorem sum_insert (f : β → ℕ) (t : Table κ β) (k : κ) (v : β) :
    ((Table.values (AList.insert k v t)).map f).sum + ((t.lookup k).map f).getD 0 =
      (t.values.map f).sum + f v := by
  have hsum := sum_kerase f k t.entries
  unfold values
  rw [AList.entries_insert, List.map_cons, List.map_cons, List.sum_cons, List.map_map, List.map_map]
  change f v + ((List.kerase k t.entries).map fun e => f e.2).sum +
    ((List.dlookup k t.entries).map f).getD 0 = (t.entries.map fun e => f e.2).sum + f v
  omega

/-- What holds of the changed entry and of all others holds of the whole table. -/
theorem forall_update {P : κ → β → Prop} {t : Table κ β} {k : κ} {default : β} {f : β → β}
    (ht : ∀ k' v, t.lookup k' = some v → P k' v)
    (hk : P k (f ((t.lookup k).getD default))) :
    ∀ k' v, (t.update k default f).lookup k' = some v → P k' v := by
  intro k' v hv
  by_cases hkey : k' = k
  · subst hkey
    rw [lookup_update] at hv
    exact Option.some.inj hv ▸ hk
  · rw [lookup_update_ne hkey] at hv
    exact ht k' v hv

theorem forall_mapValues {P : κ → β → Prop} {t : Table κ β} {f : β → β}
    (h : ∀ k v, t.lookup k = some v → P k (f v)) :
    ∀ k v, (t.mapValues f).lookup k = some v → P k v := by
  intro k v hv
  rw [lookup_mapValues, Option.map_eq_some_iff] at hv
  obtain ⟨v', hv', rfl⟩ := hv
  exact h k v' hv'

theorem mem_values_iff {t : Table κ β} {v : β} : v ∈ t.values ↔ ∃ k, t.lookup k = some v := by
  constructor
  · intro h
    obtain ⟨⟨k, v'⟩, hmem, rfl⟩ := List.mem_map.mp h
    exact ⟨k, AList.mem_lookup_iff.mpr hmem⟩
  · rintro ⟨k, hk⟩
    exact List.mem_map.mpr ⟨⟨k, v⟩, AList.mem_lookup_iff.mp hk, rfl⟩

end Table
