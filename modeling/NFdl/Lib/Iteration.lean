import NFdl.Lib.Table
import Mathlib.Data.List.Sort

/-!
# Iteration in any order

A table has no order of its own: a loop over its entries goes along some permutation of
its keys. Sorting, searching and a minimum do not depend on the permutation where what
is compared is unique, and neither does a loop that changes every entry by itself.
-/

namespace Table

variable {κ β : Type*} [DecidableEq κ] {t : Table κ β} {keys : List κ}

/-- The entries in the order of their keys in a list. -/
def entriesIn (t : Table κ β) (keys : List κ) : List (Sigma fun _ : κ => β) :=
  keys.filterMap fun k => (t.lookup k).map (Sigma.mk k)

/-- The values in the order of their keys in a list. -/
def valuesIn (t : Table κ β) (keys : List κ) : List β := (t.entriesIn keys).map Sigma.snd

/-- Change the value of one key where it stands. -/
def modify (t : Table κ β) (f : β → β) (k : κ) : Table κ β where
  entries := t.entries.map fun e => ⟨e.1, if e.1 = k then f e.2 else e.2⟩
  nodupKeys := List.NodupKeys.map₂ (fun k' v => if k' = k then f v else v) t.entries t.nodupKeys

/-- Change the values of all entries, one key after the other. -/
def sweepIn (t : Table κ β) (f : β → β) (keys : List κ) : Table κ β := keys.foldl (modify · f) t

theorem entriesIn_keys (t : Table κ β) : t.entriesIn t.keys = t.entries := by
  have hself : ∀ e ∈ t.entries, (t.lookup e.1).map (Sigma.mk e.1) = some e := by
    intro e he
    have hlookup : t.lookup e.1 = some e.2 := AList.mem_lookup_iff.mpr he
    rw [hlookup]
    rfl
  change (t.entries.map Sigma.fst).filterMap _ = t.entries
  rw [List.filterMap_map]
  exact (List.filterMap_congr hself).trans List.filterMap_some

/-- A loop meets every entry once. -/
theorem entriesIn_perm (h : keys.Perm t.keys) : (t.entriesIn keys).Perm t.entries := by
  have hperm := h.filterMap fun k => (t.lookup k).map (Sigma.mk k)
  exact hperm.trans (.of_eq (entriesIn_keys t))

theorem valuesIn_perm (h : keys.Perm t.keys) : (t.valuesIn keys).Perm t.values :=
  (entriesIn_perm h).map _

theorem entries_sweepIn (f : β → β) (hnodup : keys.Nodup) (t : Table κ β) :
    (t.sweepIn f keys).entries =
      t.entries.map fun e => ⟨e.1, if e.1 ∈ keys then f e.2 else e.2⟩ := by
  induction keys generalizing t with
  | nil => simp [sweepIn]
  | cons k rest ih =>
      obtain ⟨hnotin, hrest⟩ := List.nodup_cons.mp hnodup
      have hswept := ih hrest (t.modify f k)
      change ((t.modify f k).sweepIn f rest).entries = _
      rw [hswept]
      change (t.entries.map _).map _ = _
      rw [List.map_map]
      refine List.map_congr_left fun e _ => ?_
      simp only [Function.comp_apply, List.mem_cons]
      by_cases hkey : e.1 = k
      · simp only [hkey, if_true, true_or]
        rw [if_neg hnotin]
      · simp only [hkey, if_false, false_or]

/-- A loop that changes every entry by itself does not depend on the order. -/
theorem sweepIn_eq (f : β → β) (h : keys.Perm t.keys) : t.sweepIn f keys = t.mapValues f := by
  refine AList.ext ?_
  rw [entries_sweepIn f (h.nodup_iff.mpr t.keys_nodup)]
  refine List.map_congr_left fun e he => ?_
  rw [if_pos (h.mem_iff.mpr (List.mem_map_of_mem he))]

end Table

namespace List

variable {α : Type*} {l l' : List α}

/-- Sorting does not depend on the order of a list whose members are apart. -/
theorem Perm.insertionSort_eq {r : α → α → Prop} [DecidableRel r] [Std.Total r] [IsTrans α r]
    (h : l.Perm l') (hanti : ∀ a ∈ l, ∀ b ∈ l, r a b → r b a → a = b) :
    l.insertionSort r = l'.insertionSort r := by
  refine Perm.eq_of_pairwise (fun a b ha hb => ?_) (pairwise_insertionSort r l)
    (pairwise_insertionSort r l') ?_
  · have hb' : b ∈ l := h.mem_iff.mpr ((mem_insertionSort r).mp hb)
    exact hanti a ((mem_insertionSort r).mp ha) b hb'
  · exact (perm_insertionSort r l).trans (h.trans (perm_insertionSort r l').symm)

/-- A search for what is unique does not depend on the order. -/
theorem Perm.find?_eq {p : α → Bool} (h : l.Perm l')
    (hone : ∀ a ∈ l, ∀ b ∈ l, p a = true → p b = true → a = b) : l.find? p = l'.find? p := by
  cases hfind : l'.find? p with
  | none =>
      refine find?_eq_none.mpr fun a ha => ?_
      exact find?_eq_none.mp hfind a (h.mem_iff.mp ha)
  | some b =>
      have hb : b ∈ l := h.mem_iff.mpr (mem_of_find?_eq_some hfind)
      have hpb : p b = true := find?_some hfind
      cases hfind' : l.find? p with
      | none => exact absurd hpb (find?_eq_none.mp hfind' b hb)
      | some a =>
          exact congrArg some
            (hone a (mem_of_find?_eq_some hfind') b hb (find?_some hfind') hpb)

/-- Two loops that do the same wherever an invariant holds that they keep. -/
theorem foldl_eq_of_invariant {β : Type*} {P : β → Prop} {f f' : β → α → β}
    (hstep : ∀ b a, P b → f b a = f' b a ∧ P (f' b a)) {b : β} (hb : P b) :
    l.foldl f b = l.foldl f' b ∧ P (l.foldl f' b) := by
  induction l generalizing b with
  | nil => exact ⟨rfl, hb⟩
  | cons a rest ih =>
      obtain ⟨heq, hnext⟩ := hstep b a hb
      rw [foldl_cons, foldl_cons, heq]
      exact ih hnext

/-- The least member does not depend on the order. -/
theorem Perm.min?_eq [LinearOrder α] (h : l.Perm l') : l.min? = l'.min? := by
  induction h with
  | nil => rfl
  | cons a _ ih => rw [min?_cons, min?_cons, ih]
  | swap a b l =>
      rw [min?_cons', min?_cons', foldl_cons, foldl_cons, min_comm]
  | trans _ _ ih ih' => exact ih.trans ih'

end List
